import GrinPlusPlus.Lib.Subtrees
import GrinPlusPlus.Pmmr.SegmentRoot

/-!
# The proofs that a segment is served with

`SegmentProof::Generate`, run by the peer that has the range. The siblings are read where the
family branch names them, the peaks to the right are bagged into one hash, the peaks to the left
follow one by one: the three loops of `SegmentProof::ReconstructRoot`, with reading in the place of
hashing.

The one thing that is not a mirror image is where they start. A segment that lies in a pruned tree
has nothing below the root of that tree, so the branch is read **from that root on**, and what is
skipped is what the other side skips when it is told the same start
(`GrinPlusPlus.climb_branch`). So the proof leads from the entry of the node to the root of the
range: `GrinPlusPlus.SegmentProof.generate_node`, and `GrinPlusPlus.SegmentProof.generate_tail`
for the last segment.
-/

namespace GrinPlusPlus

open PostOrder Mountain MMRHashUtil MMRUtil Merkle

/-! ### The branch, by addresses -/

theorem Index.getSibling_node (h j : ℕ) :
    (Index.node h j).getSibling = Index.node h (sibling j) := by
  rcases Nat.even_or_odd' j with ⟨i, rfl | rfl⟩
  · rw [Index.getSibling_left, sibling, if_pos (by omega)]
  · rw [Index.getSibling_right, sibling, if_neg (by omega), Nat.add_sub_cancel]

/-- The block above the parent is the one above the child. -/
theorem div_above {h k : ℕ} (hk : h < k) (j : ℕ) :
    j / 2 ^ (k - h) = j / 2 / 2 ^ (k - (h + 1)) := by
  rw [Nat.div_div_eq_div_mul, ← pow_succ', show k - (h + 1) + 1 = k - h by omega]

/-- **The entries of the branch**: a parent that is below the size, and the sibling on the way to
it. -/
theorem mem_familyBranchFrom {size fuel h j : ℕ} {entry : ℕ × ℕ}
    (hmem : entry ∈ familyBranchFrom size fuel (Index.node h j)) :
    ∃ k, h ≤ k ∧ entry.1 = nodePos (k + 1) (j / 2 ^ (k - h) / 2) ∧ entry.1 < size ∧
      entry.2 = nodePos k (sibling (j / 2 ^ (k - h))) := by
  induction fuel generalizing h j with
  | zero => cases hmem
  | succ fuel ih =>
    rw [familyBranchFrom] at hmem
    split at hmem
    · next hin =>
      rcases List.mem_cons.1 hmem with rfl | hmem
      · refine ⟨h, le_rfl, ?_, hin, ?_⟩
        · rw [Index.getParent_node, Nat.sub_self, pow_zero, Nat.div_one, Index.node]
        · rw [Index.getSibling_node, Nat.sub_self, pow_zero, Nat.div_one]
          rfl
      · rw [Index.getParent_node] at hmem
        obtain ⟨k, hk, h1, h2, h3⟩ := ih hmem
        rw [← div_above hk] at h1 h3
        exact ⟨k, (Nat.le_succ h).trans hk, h1, h2, h3⟩
    · cases hmem

/-- **The branch up to a node above**: what comes before it is strictly between. -/
theorem exists_familyBranchFrom_eq {size fuel h j k : ℕ} (hk : h < k)
    (hlt : nodePos k (j / 2 ^ (k - h)) < size) (hfuel : size ≤ nodePos h j + fuel) :
    ∃ front other back, familyBranchFrom size fuel (Index.node h j) =
        front ++ (nodePos k (j / 2 ^ (k - h)), other) :: back ∧
      ∀ entry ∈ front, ∃ m, h < m ∧ m < k ∧ entry.1 = nodePos m (j / 2 ^ (m - h)) := by
  induction fuel generalizing h j with
  | zero =>
    have := nodePos_le_of_div_eq hk.le (rfl : j / 2 ^ (k - h) = _)
    omega
  | succ fuel ih =>
    have hbehind := nodePos_lt_parent h j
    have hparent : (Index.node h j).getParent.position = nodePos (h + 1) (j / 2) := by
      rw [Index.getParent_node, Index.node]
    have hle := nodePos_le_of_div_eq (show h + 1 ≤ k from hk) (div_above hk j).symm
    rw [familyBranchFrom, if_pos (by omega), Index.getParent_node]
    rcases (show h + 1 ≤ k from hk).eq_or_lt with rfl | hlt'
    · refine ⟨[], (Index.node h j).getSibling.position,
        familyBranchFrom size fuel (Index.node (h + 1) (j / 2)), ?_,
        fun entry hentry => absurd hentry List.not_mem_nil⟩
      rw [div_above hk, Nat.sub_self, pow_zero, Nat.div_one, List.nil_append]
      rfl
    · rw [div_above hk] at hlt
      obtain ⟨front, other, back, heq, hfront⟩ := ih hlt' hlt (by omega)
      refine ⟨(nodePos (h + 1) (j / 2), (Index.node h j).getSibling.position) :: front, other, back,
        ?_, fun entry hentry => ?_⟩
      · rw [heq, div_above hk, List.cons_append]
        rfl
      · rcases List.mem_cons.1 hentry with rfl | hentry
        · refine ⟨h + 1, Nat.lt_succ_self h, hlt', ?_⟩
          rw [show h + 1 - h = 1 by omega, pow_one]
        · obtain ⟨m, h1, h2, h3⟩ := hfront entry hentry
          exact ⟨m, (Nat.lt_succ_self h).trans h1, h2, by
            rw [h3, div_above ((Nat.lt_succ_self h).trans h1)]⟩

/-- Reading that may find nothing (`std::nullopt`) and may throw. -/
abbrev Reading := OptionT (Except Exc)

namespace SegmentProof

variable (G : Global) (getHashAt : ℕ → Reading Hash)

/-- The siblings along the branch, in `SegmentProof::Generate`. -/
def branchHashes (startPos : Option ℕ) : List (ℕ × ℕ) → Reading (List Hash)
  | [] => pure []
  | (parentPos, siblingPos) :: branch =>
    if startPos.any (parentPos < ·) then branchHashes startPos branch
    else do
      let siblingHash ← getHashAt siblingPos
      let hashes ← branchHashes startPos branch
      pure (siblingHash :: hashes)

/-- The peaks to the right, from the last one on, bagged into one hash. -/
def rightHash (mmrSize peakPos : ℕ) : List ℕ → Option Hash → Reading (Option Hash)
  | [], rhs => pure rhs
  | peak :: peaks, rhs =>
    if peak ≤ peakPos then rightHash mmrSize peakPos peaks rhs
    else do
      let peakHash ← getHashAt peak
      rightHash mmrSize peakPos peaks (some (match rhs with
        | some rhs => hashParentWithIndex G peakHash rhs mmrSize
        | none => peakHash))

/-- The peaks to the left, from the last one on. -/
def leftHashes (segmentFirstPos : ℕ) : List ℕ → Reading (List Hash)
  | [] => pure []
  | peak :: peaks =>
    if segmentFirstPos ≤ peak then leftHashes segmentFirstPos peaks
    else do
      let peakHash ← getHashAt peak
      let hashes ← leftHashes segmentFirstPos peaks
      pure (peakHash :: hashes)

/-- The peak that a branch ends at; without a branch it is the position itself. -/
def branchEnd (position : ℕ) (branch : List (ℕ × ℕ)) : ℕ :=
  match branch.getLast? with
  | none => position
  | some entry => entry.1

/-- `SegmentProof::Generate`. -/
def generate (mmrSize segmentFirstPos segmentLastPos : ℕ) (startPos : Option ℕ) :
    Reading SegmentProof := do
  let branch := familyBranch segmentLastPos mmrSize
  let siblings ← branchHashes getHashAt startPos branch
  let peakPos := branchEnd segmentLastPos branch
  let peaks := (getPeakIndices mmrSize).reverse
  let rhs ← rightHash G getHashAt mmrSize peakPos peaks none
  let lefts ← leftHashes getHashAt segmentFirstPos peaks
  pure ⟨siblings ++ rhs.toList ++ lefts⟩

variable {G getHashAt}

/-! ### What the loops read -/

theorem branchHashes_eq {startPos : Option ℕ} {branch : List (ℕ × ℕ)} (hash : ℕ → Hash)
    (hread : ∀ entry ∈ branch, ¬startPos.any (entry.1 < ·) →
      getHashAt entry.2 = pure (hash entry.2)) :
    branchHashes getHashAt startPos branch =
      pure ((branch.filter fun entry => !startPos.any (entry.1 < ·)).map fun entry =>
        hash entry.2) := by
  induction branch with
  | nil => rfl
  | cons entry branch ih =>
    have hrest := ih fun e he => hread e (List.mem_cons_of_mem _ he)
    rw [branchHashes]
    split
    · next hskip => rw [hrest, List.filter_cons_of_neg (by simp [hskip])]
    · next hskip =>
      rw [hread entry List.mem_cons_self hskip, pure_bind, hrest, pure_bind,
        List.filter_cons_of_pos (by simp [hskip]), List.map_cons]

theorem leftHashes_eq {segmentFirstPos : ℕ} {peaks : List ℕ} (hash : ℕ → Hash)
    (hread : ∀ peak ∈ peaks, peak < segmentFirstPos → getHashAt peak = pure (hash peak)) :
    leftHashes getHashAt segmentFirstPos peaks =
      pure ((peaks.filter (· < segmentFirstPos)).map hash) := by
  induction peaks with
  | nil => rfl
  | cons peak peaks ih =>
    have hrest := ih fun p hp => hread p (List.mem_cons_of_mem _ hp)
    rw [leftHashes]
    split
    · next hge =>
      rw [hrest, List.filter_cons_of_neg (by simpa using hge)]
    · next hge =>
      have hlt := Nat.lt_of_not_le hge
      rw [hread peak List.mem_cons_self hlt, pure_bind, hrest, pure_bind,
        List.filter_cons_of_pos (by simpa using hlt), List.map_cons]

/-- What is bagged of some hashes that come from the last to the first. -/
def bagRight (G : Global) (mmrSize : ℕ) : List Hash → Option Hash → Option Hash
  | [], rhs => rhs
  | hash :: hashes, rhs =>
    bagRight G mmrSize hashes (some (match rhs with
      | some rhs => hashParentWithIndex G hash rhs mmrSize
      | none => hash))

theorem rightHash_eq {mmrSize peakPos : ℕ} {peaks : List ℕ} (hash : ℕ → Hash)
    (hread : ∀ peak ∈ peaks, peakPos < peak → getHashAt peak = pure (hash peak))
    (rhs : Option Hash) :
    rightHash G getHashAt mmrSize peakPos peaks rhs =
      pure (bagRight G mmrSize ((peaks.filter (peakPos < ·)).map hash) rhs) := by
  induction peaks generalizing rhs with
  | nil => rfl
  | cons peak peaks ih =>
    have hrest := ih fun p hp => hread p (List.mem_cons_of_mem _ hp)
    rw [rightHash]
    split
    · next hle => rw [hrest, List.filter_cons_of_neg (by simpa using hle)]
    · next hle =>
      have hlt := Nat.lt_of_not_le hle
      rw [hread peak List.mem_cons_self hlt, pure_bind, hrest,
        List.filter_cons_of_pos (by simpa using hlt), List.map_cons]
      rfl

/-! ### The way up -/

section Range

variable {file : List Hash} {leaves : List (List UInt8)}

theorem entryAt_nodePos (hfile : IsRangeOf G file leaves) {h j : ℕ}
    (hle : 2 ^ h * (j + 1) ≤ leaves.length) :
    entryAt file (nodePos h j) = Merkle.root (combine G) (entryAt file) (completeTree h j) := by
  rw [entryAt, List.getD_eq_getElem?_getD, getElem?_nodePos hfile hle, Option.getD_some]

/-- The entry of a parent is the hash of its children. -/
theorem entryAt_parent (hfile : IsRangeOf G file leaves) {h j : ℕ}
    (hlt : nodePos (h + 1) j < leafPos leaves.length) :
    entryAt file (nodePos (h + 1) j) = combine G (nodePos (h + 1) j)
      (entryAt file (nodePos h (2 * j))) (entryAt file (nodePos h (2 * j + 1))) := by
  have hle := nodePos_lt_leafPos_iff.1 hlt
  rw [two_pow_succ_mul] at hle
  have hright : 2 ^ h * (2 * j + 1 + 1) ≤ leaves.length := by
    rwa [show 2 * j + 1 + 1 = 2 * (j + 1) by omega, Nat.mul_left_comm]
  have hleft : 2 ^ h * (2 * j + 1) ≤ leaves.length :=
    (Nat.mul_le_mul_left _ (Nat.le_succ _)).trans hright
  rw [entryAt_nodePos hfile (nodePos_lt_leafPos_iff.1 hlt), entryAt_nodePos hfile hleft,
    entryAt_nodePos hfile hright, completeTree, Merkle.root]

/-- One step of the branch. -/
theorem stepUp_branchStep (hfile : IsRangeOf G file leaves) {h j : ℕ}
    (hlt : nodePos (h + 1) (j / 2) < leafPos leaves.length) :
    stepUp (combine G) (entryAt file (nodePos h j))
        (branchStep ((Index.node h j).getParent.position, (Index.node h j).getSibling.position))
        (entryAt file (Index.node h j).getSibling.position) =
      entryAt file (nodePos (h + 1) (j / 2)) := by
  rw [branchStep, Index.getParent_node, entryAt_parent hfile hlt]
  rcases Nat.even_or_odd' j with ⟨i, rfl | rfl⟩
  · rw [Index.getSibling_left, Index.node, Index.node, isLeftSibling_nodePos,
      show 2 * i / 2 = i by omega, decide_eq_false (by omega)]
    rfl
  · rw [Index.getSibling_right, Index.node, Index.node, isLeftSibling_nodePos,
      show (2 * i + 1) / 2 = i by omega, decide_eq_true (by omega)]
    rfl

theorem branchEnd_cons (position : ℕ) (entry : ℕ × ℕ) (branch : List (ℕ × ℕ)) :
    branchEnd position (entry :: branch) = branchEnd entry.1 branch := by
  rw [branchEnd, branchEnd, List.getLast?_cons]
  cases branch.getLast? with
  | none => rfl
  | some e => rfl

/-- **The way up a branch**, from a node or from a node above it: what is below the start is
skipped, and the siblings are the entries of the range. -/
theorem climb_branch (hfile : IsRangeOf G file leaves) {fuel h j unprunedPos start : ℕ}
    (hstart : unprunedPos ≤ nodePos h j + 1 ∧ start = nodePos h j ∨
      ∃ k, h < k ∧ start = nodePos k (j / 2 ^ (k - h)) ∧ unprunedPos = start + 1 ∧
        start < leafPos leaves.length ∧ leafPos leaves.length ≤ nodePos h j + fuel) :
    climb (combine G)
        (((familyBranchFrom (leafPos leaves.length) fuel (Index.node h j)).filter
          (unprunedPos ≤ ·.1)).map branchStep) (entryAt file start)
        (((familyBranchFrom (leafPos leaves.length) fuel (Index.node h j)).filter
          (unprunedPos ≤ ·.1)).map fun entry => entryAt file entry.2) =
      some (entryAt file (branchEnd (nodePos h j)
        (familyBranchFrom (leafPos leaves.length) fuel (Index.node h j))), []) := by
  induction fuel generalizing h j start with
  | zero =>
    rcases hstart with ⟨-, rfl⟩ | ⟨k, hk, rfl, -, hlt, hfuel⟩
    · rfl
    · have := nodePos_le_of_div_eq hk.le (rfl : j / 2 ^ (k - h) = _)
      omega
  | succ fuel ih =>
    have hparent := Index.getParent_node h j
    have hbehind := nodePos_lt_parent h j
    have hposition : (Index.node h j).getParent.position = nodePos (h + 1) (j / 2) := by
      rw [hparent, Index.node]
    rw [familyBranchFrom]
    by_cases hin : (Index.node h j).getParent.position < leafPos leaves.length
    · rw [if_pos hin, branchEnd_cons]
      rcases hstart with ⟨hle, rfl⟩ | ⟨k, hk, rfl, rfl, hlt, hfuel⟩
      · -- the step is taken
        rw [List.filter_cons_of_pos (by
          simp only [decide_eq_true_eq]
          omega), List.map_cons, List.map_cons, climb,
          stepUp_branchStep hfile (hposition ▸ hin)]
        dsimp only
        rw [hparent]
        exact ih (.inl ⟨by omega, rfl⟩)
      · have hdiv := div_above hk j
        have hle := nodePos_le_of_div_eq (show h + 1 ≤ k from hk) hdiv.symm
        -- the step is below the start
        rw [List.filter_cons_of_neg (by
          simp only [decide_eq_true_eq]
          omega)]
        dsimp only
        rw [hparent]
        rcases (show h + 1 ≤ k from hk).eq_or_lt with rfl | hlt'
        · refine ih (.inl ⟨?_, ?_⟩)
          · rw [hdiv, Nat.sub_self, pow_zero, Nat.div_one]
          · rw [hdiv, Nat.sub_self, pow_zero, Nat.div_one]
        · refine ih (.inr ⟨k, hlt', ?_, rfl, hlt, by omega⟩)
          rw [hdiv]
    · rw [if_neg hin]
      rcases hstart with ⟨-, rfl⟩ | ⟨k, hk, rfl, -, hlt, -⟩
      · rfl
      · have hdiv := div_above hk j
        have hle := nodePos_le_of_div_eq (show h + 1 ≤ k from hk) hdiv.symm
        omega

/-! ### The bag of the peaks -/

variable {size : ℕ} {val : ℕ → Hash}

/-- **The peaks to the right** make one tree. -/
theorem bagRight_eq (q : ℕ × ℕ) (qs : List (ℕ × ℕ)) :
    bagRight G size (((q :: qs).map fun p =>
        Merkle.root (combine G) val (completeTree p.1 p.2)).reverse) none =
      some (Merkle.root (combine G) val (bagTree size q qs)) := by
  have happend : ∀ (xs : List Hash) (x : Hash) (rhs : Option Hash),
      bagRight G size (xs ++ [x]) rhs = some (match bagRight G size xs rhs with
        | some rhs => hashParentWithIndex G x rhs size
        | none => x) := by
    intro xs x
    induction xs with
    | nil => exact fun _ => rfl
    | cons y xs ih => exact fun _ => ih _
  induction qs generalizing q with
  | nil => rfl
  | cons q' qs ih =>
    rw [List.map_cons, List.reverse_cons, happend, ih q', bagTree, Merkle.root]
    rfl

/-- **The peaks to the left** are climbed over one by one. -/
theorem climb_leftSteps {q p : ℕ × ℕ} {qs front back : List (ℕ × ℕ)}
    (h : q :: qs = front ++ p :: back) :
    climb (combine G) (leftSteps size front) (Merkle.root (combine G) val (bagTree size p back))
        ((front.map fun p => Merkle.root (combine G) val (completeTree p.1 p.2)).reverse) =
      some (Merkle.root (combine G) val (bagTree size q qs), []) := by
  induction front generalizing q qs with
  | nil =>
    cases h
    rfl
  | cons f front ih =>
    rw [List.cons_append, List.cons.injEq] at h
    obtain ⟨rfl, rfl⟩ := h
    obtain ⟨q', qs', hqs⟩ : ∃ q' qs', front ++ p :: back = q' :: qs' := by
      cases front with
      | nil => exact ⟨p, back, rfl⟩
      | cons f' front => exact ⟨f', front ++ p :: back, rfl⟩
    have hsteps : leftSteps size (q :: front) = leftSteps size front ++ [⟨size, true⟩] := by
      rw [leftSteps, leftSteps, List.map_const', List.map_const', List.length_cons,
        List.replicate_succ']
    rw [hqs, hsteps, List.map_cons, List.reverse_cons]
    exact climb_append_some (ih hqs.symm) rfl

/-- The first peak of a bag, climbed over what is to the right of it. -/
theorem climb_rightStep (p : ℕ × ℕ) (back : List (ℕ × ℕ)) :
    climb (combine G) (rightStep size back)
        (Merkle.root (combine G) val (completeTree p.1 p.2))
        (bagRight G size ((back.map fun p =>
          Merkle.root (combine G) val (completeTree p.1 p.2)).reverse) none).toList =
      some (Merkle.root (combine G) val (bagTree size p back), []) := by
  cases back with
  | nil => rfl
  | cons q back =>
    rw [bagRight_eq, rightStep, List.isEmpty_cons, if_neg Bool.false_ne_true]
    rfl

/-! ### The proofs that are generated -/

/-- The peaks in front of a position, from the last one on. -/
theorem filter_peaks_lt {n first : ℕ} {front back : List (ℕ × ℕ)} {p : ℕ × ℕ}
    (h : rangePeaks n = front ++ p :: back) (h1 : leafPos (2 ^ p.1 * p.2) ≤ first)
    (h2 : first ≤ nodePos p.1 p.2) :
    (getPeakIndices (leafPos n)).reverse.filter (· < first) =
      (front.map fun q => nodePos q.1 q.2).reverse := by
  have hfront : ∀ q ∈ front, nodePos q.1 q.2 < first :=
    fun q hq => lt_of_lt_of_le (lt_of_mem_front h hq) h1
  have hback : ∀ q ∈ p :: back, ¬nodePos q.1 q.2 < first := by
    intro q hq
    rcases List.mem_cons.mp hq with rfl | hq
    · omega
    · have := lt_of_mem_back h hq
      omega
  rw [getPeakIndices_eq, h, List.map_append, List.reverse_append, List.filter_append,
    List.filter_eq_nil_iff.mpr, List.nil_append, List.filter_eq_self.mpr]
  · intro pos hpos
    obtain ⟨q, hq, rfl⟩ := List.mem_map.mp (List.mem_reverse.mp hpos)
    simpa using hfront q hq
  · intro pos hpos
    obtain ⟨q, hq, rfl⟩ := List.mem_map.mp (List.mem_reverse.mp hpos)
    simpa using hback q hq

/-- The peaks behind a peak, from the last one on. -/
theorem filter_peaks_gt {n : ℕ} {front back : List (ℕ × ℕ)} {p : ℕ × ℕ}
    (h : rangePeaks n = front ++ p :: back) :
    (getPeakIndices (leafPos n)).reverse.filter (nodePos p.1 p.2 < ·) =
      (back.map fun q => nodePos q.1 q.2).reverse := by
  have hfront : ∀ q ∈ front ++ [p], ¬nodePos p.1 p.2 < nodePos q.1 q.2 := by
    intro q hq
    rcases List.mem_append.mp hq with hq | hq
    · have h1 := lt_of_mem_front h hq
      have h2 := nodePos_eq_leafPos_add p.1 p.2
      omega
    · rw [List.mem_singleton.mp hq]
      exact lt_irrefl _
  rw [getPeakIndices_eq, h, List.append_cons, List.map_append, List.reverse_append,
    List.filter_append, List.filter_eq_self.mpr, List.filter_eq_nil_iff.mpr, List.append_nil]
  · intro pos hpos
    obtain ⟨q, hq, rfl⟩ := List.mem_map.mp (List.mem_reverse.mp hpos)
    simpa using hfront q hq
  · intro pos hpos
    obtain ⟨q, hq, rfl⟩ := List.mem_map.mp (List.mem_reverse.mp hpos)
    simpa using lt_of_mem_back h hq

/-- The hashes of some peaks of a range. -/
theorem map_entryAt_peaks (hfile : IsRangeOf G file leaves) {qs : List (ℕ × ℕ)}
    (hqs : ∀ q ∈ qs, q ∈ rangePeaks leaves.length) :
    ((qs.map fun q => nodePos q.1 q.2).reverse).map (entryAt file) =
      (qs.map fun q => Merkle.root (combine G) (entryAt file) (completeTree q.1 q.2)).reverse := by
  rw [List.map_reverse, List.map_map]
  refine congrArg List.reverse (List.map_congr_left fun q hq => ?_)
  exact entryAt_nodePos hfile ((consecutive_rangePeaks _).mem (hqs q hq)).2

/-- The peaks of a range can be read. -/
def ReadsPeaks (getHashAt : ℕ → Reading Hash) (file : List Hash) (n : ℕ) : Prop :=
  ∀ q ∈ rangePeaks n, getHashAt (nodePos q.1 q.2) = pure (entryAt file (nodePos q.1 q.2))

theorem ReadsPeaks.read {n : ℕ} (hpeaks : ReadsPeaks getHashAt file n) :
    ∀ peak ∈ (getPeakIndices (leafPos n)).reverse, getHashAt peak = pure (entryAt file peak) := by
  intro peak hpeak
  rw [getPeakIndices_eq] at hpeak
  obtain ⟨q, hq, rfl⟩ := List.mem_map.1 (List.mem_reverse.1 hpeak)
  exact hpeaks q hq

/-- Where the proof of a node starts: at the node, or at the root of a pruned tree above it. -/
inductive StartsAt (size h j : ℕ) : Option ℕ → ℕ → ℕ → Prop
  | node : StartsAt size h j none (nodePos h j + 1) (nodePos h j)
  | above {k : ℕ} (hk : h < k) (hlt : nodePos k (j / 2 ^ (k - h)) < size) :
      StartsAt size h j (some (nodePos k (j / 2 ^ (k - h)) + 1))
        (nodePos k (j / 2 ^ (k - h)) + 1) (nodePos k (j / 2 ^ (k - h)))

variable (getHashAt) in
/-- **A generated proof** leads from the entry of the node, or of the root above it, to the root
of the range. -/
theorem generate_node (hfile : IsRangeOf G file leaves) {h j : ℕ}
    (hle : 2 ^ h * (j + 1) ≤ leaves.length) {startPos : Option ℕ} {unprunedPos start : ℕ}
    (hstart : StartsAt (leafPos leaves.length) h j startPos unprunedPos start)
    (hread : ∀ entry ∈ familyBranch (nodePos h j) (leafPos leaves.length),
      unprunedPos ≤ entry.1 → getHashAt entry.2 = pure (entryAt file entry.2))
    (hpeaks : ReadsPeaks getHashAt file leaves.length) :
    ∃ proof : SegmentProof,
      generate G getHashAt (leafPos leaves.length) (leafPos (2 ^ h * j)) (nodePos h j) startPos =
        pure proof ∧
      proof.reconstructRoot G (leafPos leaves.length) (leafPos (2 ^ h * j)) (nodePos h j)
        (entryAt file start) unprunedPos =
          some (Merkle.root (combine G) (entryAt file) (rangeTree leaves.length)) := by
  have hlt := nodePos_lt_leafPos_iff.mpr hle
  obtain ⟨top, htop⟩ := exists_top hlt
  obtain ⟨front, back, hsplit⟩ := List.append_of_mem htop.mem_rangePeaks
  have hbounds := block_bounds (j := j) htop.height_le
  rw [← htop.block_eq] at hbounds
  have hfirst := leafPos_strictMono.monotone hbounds.1
  have hlast : leafPos (2 ^ h * j) ≤ nodePos top.1 top.2 := by
    have h1 := nodePos_lt_leafPos_iff.mpr hbounds.2
    have h2 := nodePos_eq_leafPos_add h j
    have h3 := nodePos_le_of_div_eq htop.height_le htop.block_eq.symm
    omega
  have htopEntry : entryAt file (nodePos top.1 top.2) =
      Merkle.root (combine G) (entryAt file) (completeTree top.1 top.2) :=
    entryAt_nodePos hfile (nodePos_lt_leafPos_iff.1 htop.lt)
  have hend : branchEnd (nodePos h j) (familyBranch (nodePos h j) (leafPos leaves.length)) =
      nodePos top.1 top.2 := htop.last
  -- both sides skip the same part of the branch
  have hskip : (familyBranch (nodePos h j) (leafPos leaves.length)).filter
      (fun entry => !startPos.any (entry.1 < ·)) =
      (familyBranch (nodePos h j) (leafPos leaves.length)).filter (unprunedPos ≤ ·.1) := by
    refine List.filter_congr fun entry hentry => ?_
    cases hstart with
    | node =>
      have := htop.above entry hentry
      rw [Option.any_none, decide_eq_true (by omega)]
      rfl
    | above hk _ =>
      rw [Option.any_some, Bool.eq_iff_iff, Bool.not_eq_true', decide_eq_false_iff_not,
        decide_eq_true_eq]
      omega
  -- along the branch the climb comes to the peak
  have hbranch : climb (combine G)
      (((familyBranch (nodePos h j) (leafPos leaves.length)).filter
        (unprunedPos ≤ ·.1)).map branchStep) (entryAt file start)
      (((familyBranch (nodePos h j) (leafPos leaves.length)).filter
        (unprunedPos ≤ ·.1)).map fun entry => entryAt file entry.2) =
      some (Merkle.root (combine G) (entryAt file) (completeTree top.1 top.2), []) := by
    rw [familyBranch, if_neg (by omega), Index.ofPosition_nodePos] at hend ⊢
    have hclimb := @climb_branch _ _ _ hfile (leafPos leaves.length) h j unprunedPos start (by
        cases hstart with
        | node => exact .inl ⟨le_rfl, rfl⟩
        | above hk hlt => exact .inr ⟨_, hk, rfl, rfl, hlt, Nat.le_add_left _ _⟩)
    rwa [hend, htopEntry] at hclimb
  have hfrontMem : ∀ q ∈ front, q ∈ rangePeaks leaves.length := fun q hq => by
    rw [hsplit]
    exact List.mem_append_left _ hq
  have hbackMem : ∀ q ∈ back, q ∈ rangePeaks leaves.length := fun q hq => by
    rw [hsplit]
    exact List.mem_append_right _ (List.mem_cons_of_mem _ hq)
  refine ⟨⟨(((familyBranch (nodePos h j) (leafPos leaves.length)).filter
      (unprunedPos ≤ ·.1)).map fun entry => entryAt file entry.2) ++
    Option.toList (bagRight G (leafPos leaves.length) ((back.map fun q =>
      Merkle.root (combine G) (entryAt file) (completeTree q.1 q.2)).reverse) none) ++
    (front.map fun q =>
      Merkle.root (combine G) (entryAt file) (completeTree q.1 q.2)).reverse⟩, ?_, ?_⟩
  rotate_left
  · rw [reconstructRoot_eq_some_iff, steps]
    rw [htop.last, any_right hsplit, filter_left hsplit hfirst hlast]
    refine climb_append_some (climb_append_some hbranch (climb_rightStep top back)) ?_
    rw [rangeTree]
    rcases hpeaksList : rangePeaks leaves.length with _ | ⟨q, qs⟩
    · rw [hpeaksList] at hsplit
      exact absurd hsplit (by simp)
    · exact climb_leftSteps (hpeaksList ▸ hsplit)
  · rw [generate]
    dsimp only
    rw [branchHashes_eq (entryAt file), pure_bind, hend,
      rightHash_eq (entryAt file) fun peak hpeak _ => hpeaks.read peak hpeak, pure_bind,
      leftHashes_eq (entryAt file) fun peak hpeak _ => hpeaks.read peak hpeak, pure_bind,
      hskip, filter_peaks_gt hsplit, filter_peaks_lt hsplit hfirst hlast,
      map_entryAt_peaks hfile hfrontMem, map_entryAt_peaks hfile hbackMem]
    intro entry hentry hany
    refine hread entry hentry ?_
    cases hstart with
    | node =>
      have := htop.above entry hentry
      omega
    | above hk _ =>
      rw [Option.any_some, decide_eq_true_eq] at hany
      omega

variable (getHashAt) in
/-- **The proof of the last segment**, which is a tail of the bag. -/
theorem generate_tail (hfile : IsRangeOf G file leaves) {front back : List (ℕ × ℕ)} {p : ℕ × ℕ}
    (hsplit : rangePeaks leaves.length = front ++ p :: back)
    (hpeaks : ReadsPeaks getHashAt file leaves.length) (unprunedPos : ℕ) :
    ∃ proof : SegmentProof,
      generate G getHashAt (leafPos leaves.length) (leafPos (2 ^ p.1 * p.2))
        (leafPos leaves.length - 1) none = pure proof ∧
      proof.reconstructRoot G (leafPos leaves.length) (leafPos (2 ^ p.1 * p.2))
        (leafPos leaves.length - 1)
        (Merkle.root (combine G) (entryAt file) (bagTree (leafPos leaves.length) p back))
        unprunedPos =
          some (Merkle.root (combine G) (entryAt file) (rangeTree leaves.length)) := by
  have hlast := nodePos_eq_leafPos_add p.1 p.2
  have hnone : ∀ peak ∈ (getPeakIndices (leafPos leaves.length)).reverse,
      ¬leafPos leaves.length - 1 < peak := by
    intro peak hpeak
    rw [getPeakIndices_leafPos] at hpeak
    have := (peaksFrom_bounds (List.mem_reverse.1 hpeak)).2
    omega
  have hfrontMem : ∀ q ∈ front, q ∈ rangePeaks leaves.length := fun q hq => by
    rw [hsplit]
    exact List.mem_append_left _ hq
  refine ⟨⟨(front.map fun q =>
    Merkle.root (combine G) (entryAt file) (completeTree q.1 q.2)).reverse⟩, ?_, ?_⟩
  · rw [generate, familyBranch_last]
    dsimp only
    rw [branchHashes, pure_bind, branchEnd, List.getLast?_nil,
      rightHash_eq (entryAt file) fun peak hpeak _ => hpeaks.read peak hpeak, pure_bind,
      leftHashes_eq (entryAt file) fun peak hpeak _ => hpeaks.read peak hpeak, pure_bind,
      List.filter_eq_nil_iff.2 fun peak hpeak => by simpa using hnone peak hpeak,
      filter_peaks_lt hsplit le_rfl (by omega), map_entryAt_peaks hfile hfrontMem]
    rfl
  · have hright : (getPeakIndices (leafPos leaves.length)).any (leafPos leaves.length - 1 < ·) =
        false := by
      rw [List.any_eq_false]
      intro peak hpeak
      simpa using hnone peak (List.mem_reverse.2 hpeak)
    rw [reconstructRoot_eq_some_iff, steps, familyBranch_last]
    dsimp only
    rw [List.filter_nil, List.map_nil, List.getLast?_nil, hright, if_neg Bool.false_ne_true,
      List.nil_append, filter_left hsplit le_rfl (by omega), List.nil_append]
    rw [rangeTree]
    rcases hpeaksList : rangePeaks leaves.length with _ | ⟨q, qs⟩
    · rw [hpeaksList] at hsplit
      exact absurd hsplit (by simp)
    · exact climb_leftSteps (hpeaksList ▸ hsplit)

end Range

end SegmentProof

end GrinPlusPlus
