import GrinPlusPlus.Pmmr.Desegmenter
import GrinPlusPlus.Pmmr.KernelStorage
import Mathlib.Data.List.Induction

/-!
# The download of the kernels

`KernelMMR::ApplySegment`, and what a kernel range holds when segment after segment was
accepted by the desegmenter and applied to it.

Accepting a segment binds the leaves of its block: each of them is supplied, and the kernel
root of the header commits to it (`GrinPlusPlus.Segment.commits_of_validate`). Applying a
segment looks at other things: it appends the supplied leaves that continue the range, whether
they belong to the block or not. The two agree, and the range holds the first kernels of the
header, exactly when no leaf is supplied behind the block
(`GrinPlusPlus.KernelSync.download_sound_iff`). A leaf behind the block is not looked at when
the segment is accepted, and is appended all the same.
-/

namespace GrinPlusPlus

open Exec PostOrder Mountain MMRHashUtil MMRUtil

namespace KernelStorage

variable (G : Global)

/-- The loop of `KernelMMR::ApplySegment` over the leaves. -/
def applyLeaves : ℕ → List (ℕ × TransactionKernel) → Exec Exc KernelStorage Bool
  | _, [] => pure true
  | nextKernel, (position, kernel) :: leaves =>
    let expectedPosition := leafPosition nextKernel
    if position < expectedPosition then applyLeaves nextKernel leaves
    else if position ≠ expectedPosition then pure false
    else do
      applyKernel G kernel
      applyLeaves (nextKernel + 1) leaves

/-- `KernelMMR::ApplySegment`. -/
def applySegment (segment : Segment TransactionKernel) : Exec Exc KernelStorage Bool :=
  if ¬segment.hashPos.isEmpty then pure false
  else if segment.leafPos.length ≠ segment.leaves.length then pure false
  else do
    let s ← get
    applyLeaves G s.getNumKernels (segment.leafPos.zip segment.leaves)

variable {G} {s s' : KernelStorage} {kernels committed : List TransactionKernel}

/-- What applying some leaves adds: leaves that continue the range, until no leaf at or behind
its end is left. -/
structure Adds (leaves : List (ℕ × TransactionKernel)) (numKernels : ℕ)
    (added : List TransactionKernel) : Prop where
  /-- What is added was supplied for its place. -/
  supplied : ∀ i kernel, added[i]? = some kernel → (leafPos (numKernels + i), kernel) ∈ leaves
  /-- What was supplied stands in front of the new end. -/
  lt : ∀ leaf ∈ leaves, leaf.1 < leafPos (numKernels + added.length)

/-- **Applying the leaves**, when it succeeds. -/
theorem Stores.run_applyLeaves (h : Stores G s kernels committed)
    {leaves : List (ℕ × TransactionKernel)}
    (hrun : run (applyLeaves G kernels.length leaves) s = (.ok true, s')) :
    ∃ added, s'.storageFormat = s.storageFormat ∧ Stores G s' (kernels ++ added) committed ∧
      Adds leaves kernels.length added := by
  induction leaves generalizing s kernels with
  | nil =>
    cases hrun
    exact ⟨[], rfl, by rwa [List.append_nil], nofun, nofun⟩
  | cons leaf leaves ih =>
    obtain ⟨position, kernel⟩ := leaf
    rw [applyLeaves] at hrun
    split at hrun
    · -- The leaf is in the range already.
      next hskip =>
      obtain ⟨added, hformat, hstores, hadds⟩ := ih h hrun
      refine ⟨added, hformat, hstores, fun i k hk => ?_, List.forall_mem_cons.mpr ⟨?_, hadds.lt⟩⟩
      · exact List.mem_cons_of_mem _ (hadds.supplied i k hk)
      · exact lt_of_lt_of_le hskip (leafPos_strictMono.monotone (Nat.le_add_right ..))
    · next hge =>
      split at hrun
      · cases hrun
      · next hne =>
        have heq : position = leafPos kernels.length := not_not.mp hne
        obtain ⟨t, ht, hformat, hstores⟩ := h.run_applyKernel kernel
        rw [run_bind_ok ht] at hrun
        have hlength : (kernels ++ [kernel]).length = kernels.length + 1 := by
          rw [List.length_append, List.length_singleton]
        obtain ⟨added, hformat', hstores', hadds⟩ := ih hstores (by rw [hlength]; exact hrun)
        rw [hlength] at hadds
        refine ⟨kernel :: added, hformat'.trans hformat, ?_, fun i k hk => ?_,
          List.forall_mem_cons.mpr ⟨?_, ?_⟩⟩
        · rwa [List.append_assoc, List.singleton_append] at hstores'
        · cases i with
          | zero =>
            cases hk
            rw [heq]
            exact List.mem_cons_self ..
          | succ i =>
            refine List.mem_cons_of_mem _ ?_
            rw [← Nat.add_assoc, Nat.add_right_comm]
            exact hadds.supplied i k hk
        · rw [heq]
          exact leafPos_strictMono (by rw [List.length_cons]; omega)
        · intro leaf hleaf
          rw [List.length_cons, ← Nat.add_assoc, Nat.add_right_comm]
          exact hadds.lt leaf hleaf

/-- **Applying a segment**, when it succeeds. -/
theorem Stores.run_applySegment (h : Stores G s kernels committed)
    {segment : Segment TransactionKernel}
    (hrun : run (applySegment G segment) s = (.ok true, s')) :
    ∃ added, s'.storageFormat = s.storageFormat ∧ Stores G s' (kernels ++ added) committed ∧
      Adds (segment.leafPos.zip segment.leaves) kernels.length added := by
  rw [applySegment] at hrun
  split at hrun
  · cases hrun
  · split at hrun
    · cases hrun
    · rw [run_bind_ok (run_get s), h.getNumKernels_eq] at hrun
      exact h.run_applyLeaves hrun

end KernelStorage

/-! ### Leaves of a segment -/

namespace Segment

variable {α : Type} {s : Segment α}

theorem mem_zip_of_getLeafAt {position : ℕ} {leaf : α} (h : s.getLeafAt position = some leaf) :
    (position, leaf) ∈ s.leafPos.zip s.leaves := by
  obtain ⟨front, back, hsplit, -⟩ := List.lookup_eq_some_iff.mp h
  rw [hsplit]
  exact List.mem_append_right _ (List.mem_cons_self ..)

/-- A position is supplied once. -/
theorem Deserialized.getLeafAt_eq (hs : s.Deserialized) {position : ℕ} {leaf : α}
    (h : (position, leaf) ∈ s.leafPos.zip s.leaves) : s.getLeafAt position = some leaf := by
  obtain ⟨front, back, hsplit⟩ := List.append_of_mem h
  refine List.lookup_eq_some_iff.mpr ⟨front, back, hsplit, fun entry hentry => ?_⟩
  have hkeys : s.leafPos = front.map Prod.fst ++ position :: back.map Prod.fst := by
    have := congrArg (List.map Prod.fst) hsplit
    rwa [List.map_fst_zip hs.length_leaves.le, List.map_append, List.map_cons] at this
  have hsorted := hs.leafPos_sorted
  rw [hkeys, List.pairwise_append] at hsorted
  have hlt := hsorted.2.2 entry.1 (List.mem_map_of_mem hentry) position (List.mem_cons_self ..)
  simpa using hlt.ne'

end Segment

namespace TxHashSetDesegmenter

variable {G : Global}

/-- The shared check is the one of `Segment::Validate`. -/
theorem validate_of_validatesTo {α : Type} {serialized : α → List UInt8} {segment : Segment α}
    {mmrSize : ℕ} {bitmap : Option BitmapAccumulator} {mmrRoot : Hash}
    (h : validatesTo G serialized segment mmrSize bitmap mmrRoot = true) :
    segment.validate G serialized mmrSize mmrRoot bitmap = true := by
  rw [validatesTo] at h
  rw [Segment.validate]
  rcases hparent : segment.firstUnprunedParent G serialized mmrSize bitmap with _ | ⟨hash, pos⟩
  · rw [hparent] at h
    cases h
  · rw [hparent] at h
    dsimp only at h ⊢
    rw [SegmentProof.validate]
    rcases hroot : segment.proof.reconstructRoot G mmrSize (segment.id.getPositionRange mmrSize).1
      (segment.id.getPositionRange mmrSize).2 hash pos with _ | root
    · rw [hroot] at h
      cases h
    · rw [hroot] at h
      exact h

/-- **An accepted kernel segment** leads to the kernel root of the header. -/
theorem validate_of_addKernelSegment {segment : Segment TransactionKernel}
    {d : TxHashSetDesegmenter} (h : (run (addKernelSegment G segment) d).1 = .ok true) :
    segment.validate G TransactionKernel.serialize d.archiveHeader.getKernelMMRSize
      d.archiveHeader.kernelRoot none = true := by
  rw [addKernelSegment, run_bind_ok (run_get d)] at h
  split at h
  · cases h
  · split at h
    · cases h
    · next hvalid => exact validate_of_validatesTo (not_not.mp hvalid)

end TxHashSetDesegmenter

/-! ### The download -/

namespace KernelSync

open KernelStorage TxHashSetDesegmenter

variable (G : Global) (header : BlockHeader) (format : KernelStorageFormat)

/-- Kernel segments are accepted and applied one after the other, from an empty range on. -/
inductive Download : List (Segment TransactionKernel) → KernelStorage → Prop
  | start : Download [] (.empty format)
  | apply {segments : List (Segment TransactionKernel)} {segment : Segment TransactionKernel}
      {s s' : KernelStorage} {d : TxHashSetDesegmenter} (hdownload : Download segments s)
      (hheight : segment.id.height.toNat = PIBD.kernelSegmentHeight)
      (hindex : segment.id.index.toNat = segments.length)
      (hdeserialized : segment.Deserialized) (hheader : d.archiveHeader = header)
      (haccepted : (run (addKernelSegment G segment) d).1 = .ok true)
      (happlied : run (applySegment G segment) s = (.ok true, s')) :
      Download (segments ++ [segment]) s'

/-- The kernel root of a header commits to a kernel: there is a proof of its leaf. -/
def Commits (i : ℕ) (kernel : TransactionKernel) : Prop :=
  Segment.Commits G header.getKernelMMRSize header.kernelRoot i
    (hashLeafWithIndex G kernel.serialize (leafPos i))

/-- The number of kernels after some segments. -/
def numKernelsAfter (count : ℕ) : ℕ :=
  min header.getNumKernels (count * 2 ^ PIBD.kernelSegmentHeight)

/-- The range holds exactly the first kernels that the header commits to. -/
def HoldsFirst (n : ℕ) (s : KernelStorage) : Prop :=
  ∃ kernels committed, Stores G s kernels committed ∧ kernels.length = n ∧
    ∀ i kernel, kernels[i]? = some kernel ↔ i < n ∧ Commits G header i kernel

/-- **What a download is for**: after some segments the range holds their kernels, and after
all segments it has the root of the header. -/
structure Sound (count : ℕ) (s : KernelStorage) : Prop where
  /-- The kernels are those of the header. -/
  holds : HoldsFirst G header (numKernelsAfter header count) s
  /-- The root is that of the header. -/
  root_eq : SegmentIdentifier.countSegmentsRequired header.getKernelMMRSize
      PIBD.kernelSegmentHeight ≤ count →
    s.root G header.getKernelMMRSize = .ok header.kernelRoot

/-- A segment supplies no leaf behind its block. -/
def StaysInBlock (segment : Segment TransactionKernel) : Prop :=
  ∀ position ∈ segment.leafPos,
    position < leafPos (numKernelsAfter header (segment.id.index.toNat + 1))

variable {G header format} {s s' : KernelStorage} {segments : List (Segment TransactionKernel)}

/-! ### One segment -/

theorem getNumKernels_eq : header.getNumKernels = countLeaves header.getKernelMMRSize := by
  rw [BlockHeader.getNumKernels, countLeaves]
  split
  · next h =>
    rw [h]
    rfl
  · rfl

theorem getKernelMMRSize_lt : header.getKernelMMRSize < 2 ^ 64 :=
  header.kernelMMRSize.toNat_lt

/-- The header commits to one kernel in each place. -/
theorem Commits.unique (hG : G.InjectiveWithIndex) {i : ℕ} {kernel kernel' : TransactionKernel}
    (h : Commits G header i kernel) (h' : Commits G header i kernel') : kernel = kernel' := by
  have hhash := Segment.Commits.unique hG h h'
  exact TransactionKernel.serialize_injective (hG.leaf _ _ _ _ hhash).2

/-- **A leaf of an accepted segment**: it is supplied, and committed to. -/
theorem exists_leaf {segment : Segment TransactionKernel} {d : TxHashSetDesegmenter}
    (hheight : segment.id.height.toNat = PIBD.kernelSegmentHeight)
    (hdeserialized : segment.Deserialized) (hheader : d.archiveHeader = header)
    (haccepted : (run (addKernelSegment G segment) d).1 = .ok true) {i : ℕ}
    (hle : segment.id.index.toNat * 2 ^ PIBD.kernelSegmentHeight ≤ i)
    (hlt : i < numKernelsAfter header (segment.id.index.toNat + 1)) :
    ∃ kernel, segment.getLeafAt (leafPos i) = some kernel ∧ Commits G header i kernel := by
  have hi : i < countLeaves header.getKernelMMRSize := by
    rw [← getNumKernels_eq]
    exact lt_of_lt_of_le hlt (Nat.min_le_left ..)
  have hblock : i < 2 ^ segment.id.height.toNat * (segment.id.index.toNat + 1) := by
    rw [hheight, Nat.mul_comm]
    exact lt_of_lt_of_le hlt (Nat.min_le_right ..)
  rw [Nat.mul_comm, ← hheight] at hle
  have hbits : countLeaves header.getKernelMMRSize < 2 ^ 64 := by
    rw [countLeaves]
    split
    · decide
    · exact lt_trans (Nat.mod_lt _ (by decide)) (by decide)
  have hid : segment.id.Block _ _ := SegmentIdentifier.block_of_lt (by omega)
  have hvalid := validate_of_addKernelSegment haccepted
  rw [hheader] at hvalid
  exact Segment.commits_of_validate hid hdeserialized getKernelMMRSize_lt hvalid hle hblock hi

/-- **One step**: a segment that stays in its block adds its kernels, and no others. -/
theorem HoldsFirst.step (hG : G.InjectiveWithIndex) {segment : Segment TransactionKernel}
    {d : TxHashSetDesegmenter} {count : ℕ}
    (h : HoldsFirst G header (numKernelsAfter header count) s)
    (hheight : segment.id.height.toNat = PIBD.kernelSegmentHeight)
    (hindex : segment.id.index.toNat = count) (hdeserialized : segment.Deserialized)
    (hheader : d.archiveHeader = header)
    (haccepted : (run (addKernelSegment G segment) d).1 = .ok true)
    (happlied : run (applySegment G segment) s = (.ok true, s'))
    (hstays : StaysInBlock header segment) :
    HoldsFirst G header (numKernelsAfter header (count + 1)) s' := by
  obtain ⟨kernels, committed, hstores, hlength, hkernels⟩ := h
  obtain ⟨added, -, hstores', hadds⟩ := hstores.run_applySegment happlied
  rw [StaysInBlock, hindex] at hstays
  have hleaf : ∀ i, kernels.length ≤ i → i < numKernelsAfter header (count + 1) →
      ∃ kernel, segment.getLeafAt (leafPos i) = some kernel ∧ Commits G header i kernel := by
    intro i hle hlt
    refine exists_leaf hheight hdeserialized hheader haccepted ?_ (by rwa [hindex])
    -- The range only ended in front of the block when it was complete.
    have h1 : i < header.getNumKernels := lt_of_lt_of_le hlt (Nat.min_le_left ..)
    rw [hlength, numKernelsAfter] at hle
    rw [hindex]
    omega
  have hupper : kernels.length + added.length ≤ numKernelsAfter header (count + 1) := by
    rcases Nat.eq_zero_or_pos added.length with hzero | hpos
    · rw [hzero, Nat.add_zero, hlength, numKernelsAfter, numKernelsAfter]
      have : count * 2 ^ PIBD.kernelSegmentHeight ≤ (count + 1) * 2 ^ PIBD.kernelSegmentHeight :=
        Nat.mul_le_mul_right _ (Nat.le_succ count)
      omega
    · have hlast := hadds.supplied (added.length - 1) _
        (List.getElem?_eq_getElem (by omega))
      have hlt := hstays _ (List.of_mem_zip hlast).1
      have := leafPos_strictMono.lt_iff_lt.mp hlt
      omega
  have hlower : numKernelsAfter header (count + 1) ≤ kernels.length + added.length := by
    by_contra hlt
    obtain ⟨kernel, hkernel, -⟩ :=
      hleaf (kernels.length + added.length) (Nat.le_add_right ..) (by omega)
    exact lt_irrefl _ (hadds.lt _ (Segment.mem_zip_of_getLeafAt hkernel))
  refine ⟨kernels ++ added, committed, hstores', ?_, fun i kernel => ⟨fun hi => ?_, ?_⟩⟩
  · rw [List.length_append]
    omega
  · have hi' := (List.getElem?_eq_some_iff.mp hi).1
    rw [List.length_append] at hi'
    refine ⟨by omega, ?_⟩
    rcases Nat.lt_or_ge i kernels.length with hold | hnew
    · rw [List.getElem?_append_left hold] at hi
      exact ((hkernels i kernel).mp hi).2
    · rw [List.getElem?_append_right hnew] at hi
      obtain ⟨kernel', hkernel', hcommits⟩ := hleaf i hnew (by omega)
      have hmem := hadds.supplied _ _ hi
      rw [Nat.add_sub_cancel' hnew] at hmem
      rw [hdeserialized.getLeafAt_eq hmem] at hkernel'
      cases hkernel'
      exact hcommits
  · rintro ⟨hi, hcommits⟩
    rcases Nat.lt_or_ge i kernels.length with hold | hnew
    · rw [List.getElem?_append_left hold]
      exact (hkernels i kernel).mpr ⟨hlength ▸ hold, hcommits⟩
    · obtain ⟨kernel', hkernel', hcommits'⟩ := hleaf i hnew hi
      have hget := List.getElem?_eq_getElem (l := added) (i := i - kernels.length) (by omega)
      have hmem := hadds.supplied _ _ hget
      rw [Nat.add_sub_cancel' hnew] at hmem
      rw [hdeserialized.getLeafAt_eq hmem] at hkernel'
      cases hkernel'
      rw [List.getElem?_append_right hnew, hget, hcommits.unique hG hcommits']

/-! ### All segments -/

/-- What is known of the segments of a download. -/
theorem Download.accepted (h : Download G header format segments s) {i : ℕ}
    {segment : Segment TransactionKernel} (hi : segments[i]? = some segment) :
    segment.id.height.toNat = PIBD.kernelSegmentHeight ∧ segment.id.index.toNat = i ∧
      segment.Deserialized ∧ segment.validate G TransactionKernel.serialize
        header.getKernelMMRSize header.kernelRoot none = true := by
  induction h with
  | start => cases hi
  | @apply segments last s s' d hdownload hheight hindex hdeserialized hheader haccepted _ ih =>
    rcases Nat.lt_or_ge i segments.length with hlt | hge
    · rw [List.getElem?_append_left hlt] at hi
      exact ih hi
    · have hlen := (List.getElem?_eq_some_iff.mp hi).1
      rw [List.length_append, List.length_singleton] at hlen
      obtain rfl : i = segments.length := by omega
      rw [List.getElem?_concat_length] at hi
      cases hi
      exact ⟨hheight, hindex, hdeserialized, hheader ▸ validate_of_addKernelSegment haccepted⟩

/-- A download leaves a storage of some kernels. -/
theorem Download.stores (h : Download G header format segments s) :
    ∃ kernels committed, Stores G s kernels committed := by
  induction h with
  | start => exact ⟨[], [], stores_empty format⟩
  | apply _ _ _ _ _ _ happlied ih =>
    obtain ⟨kernels, committed, hstores⟩ := ih
    obtain ⟨added, -, hstores', -⟩ := hstores.run_applySegment happlied
    exact ⟨kernels ++ added, committed, hstores'⟩

/-- An accepted segment has a root. -/
theorem exists_root {segment : Segment TransactionKernel} {mmrSize : ℕ} {mmrRoot : Hash}
    (h : segment.validate G TransactionKernel.serialize mmrSize mmrRoot none = true) :
    ∃ hash, segment.root G TransactionKernel.serialize mmrSize none = some hash := by
  rcases hroot : segment.root G TransactionKernel.serialize mmrSize none with _ | hash
  · rw [Segment.validate, Segment.firstUnprunedParent, hroot] at h
    cases h
  · exact ⟨hash, rfl⟩

/-- **When all segments were accepted**, the size of the header is the size of a range. -/
theorem Download.closed (h : Download G header format segments s) (hne : segments ≠ [])
    (hall : SegmentIdentifier.countSegmentsRequired header.getKernelMMRSize
      PIBD.kernelSegmentHeight ≤ segments.length) :
    0 < header.getNumKernels ∧ header.getKernelMMRSize = leafPos header.getNumKernels := by
  have hpos : 0 < header.getNumKernels := by
    obtain ⟨first, rest, rfl⟩ := List.exists_cons_of_ne_nil hne
    obtain ⟨-, -, -, hvalid⟩ := h.accepted (i := 0) rfl
    obtain ⟨hash, hroot⟩ := exists_root hvalid
    by_contra hzero
    rw [Segment.root_of_countLeaves_eq_zero (by rw [← getNumKernels_eq]; omega)] at hroot
    cases hroot
  have hcount := countLeaves_eq getKernelMMRSize_lt (getNumKernels_eq ▸ hpos)
  rw [getNumKernels_eq, hcount] at hpos ⊢
  refine ⟨hpos, ?_⟩
  rw [SegmentIdentifier.countSegmentsRequired, hcount] at hall
  obtain ⟨n, hn⟩ : ∃ n, n = Index.calculateLeafIndex header.getKernelMMRSize := ⟨_, rfl⟩
  rw [← hn] at hall
  by_cases hfull : n % 2 ^ PIBD.kernelSegmentHeight = 0
  · refine closed_of_even ?_
    rw [← hn]
    rw [PIBD.kernelSegmentHeight] at hfull
    omega
  · -- The last segment is not full, and has a root.
    have hdiv := Nat.div_add_mod n (2 ^ PIBD.kernelSegmentHeight)
    have hmod := Nat.mod_lt n (Nat.two_pow_pos PIBD.kernelSegmentHeight)
    have hlast : n / 2 ^ PIBD.kernelSegmentHeight < segments.length := by
      rw [PIBD.kernelSegmentHeight] at hall hfull ⊢
      omega
    obtain ⟨hheight, hindex, -, hvalid⟩ := h.accepted (List.getElem?_eq_getElem hlast)
    obtain ⟨hash, hroot⟩ := exists_root hvalid
    have hbits : n < 2 ^ 63 := by
      rw [hn, ← hcount, countLeaves]
      split
      · decide
      · exact Nat.mod_lt _ (by decide)
    have hid : (segments[n / 2 ^ PIBD.kernelSegmentHeight]).id.Block _ _ :=
      SegmentIdentifier.block_of_lt (by rw [hheight, hindex]; omega)
    rw [hheight, hindex] at hid
    by_contra hopen
    rw [Segment.root_of_ne hid hopen (by rw [hcount, ← hn]; omega)
      (by rw [hcount, ← hn, Nat.mul_succ]; omega)] at hroot
    cases hroot

/-- A complete range has the root of the header. -/
theorem HoldsFirst.root_eq (hG : G.InjectiveWithIndex) (hz : G.NonzeroWithIndex)
    (h : HoldsFirst G header header.getNumKernels s) (hpos : 0 < header.getNumKernels)
    (hclosed : header.getKernelMMRSize = leafPos header.getNumKernels) :
    s.root G header.getKernelMMRSize = .ok header.kernelRoot := by
  obtain ⟨kernels, committed, hstores, hlength, hkernels⟩ := h
  have hlength' : (kernels.map TransactionKernel.serialize).length = header.getNumKernels := by
    rw [List.length_map, hlength]
  have hroot := root_of_commits hG hz hstores.range (r := header.kernelRoot)
    (by rw [hlength']; exact hpos) (by
      intro j leaf hleaf
      obtain ⟨kernel, hkernel, rfl⟩ := List.getElem?_map .. ▸ hleaf |> Option.map_eq_some_iff.mp
      rw [hlength', ← hclosed]
      exact ((hkernels j kernel).mp hkernel).2)
  rw [KernelStorage.root, hclosed]
  rwa [hlength'] at hroot

theorem holdsFirst_empty : HoldsFirst G header (numKernelsAfter header 0) (.empty format) := by
  refine ⟨[], [], stores_empty format, ?_, fun i kernel => ⟨nofun, ?_⟩⟩
  · rw [numKernelsAfter, Nat.zero_mul, Nat.min_zero, List.length_nil]
  · rintro ⟨hi, -⟩
    rw [numKernelsAfter, Nat.zero_mul, Nat.min_zero] at hi
    cases hi

/-- **A run**: as long as every segment stays in its block, the range holds the first kernels
of the header. -/
theorem Download.holdsFirst (hG : G.InjectiveWithIndex) (h : Download G header format segments s)
    (hstays : ∀ segment ∈ segments, StaysInBlock header segment) :
    HoldsFirst G header (numKernelsAfter header segments.length) s := by
  induction h with
  | start => exact holdsFirst_empty
  | @apply segments segment s s' d _ hheight hindex hdeserialized hheader haccepted happlied ih =>
    rw [List.length_append, List.length_singleton]
    have hfirst := ih fun seg hseg => hstays seg (List.mem_append_left _ hseg)
    exact hfirst.step hG hheight hindex hdeserialized hheader haccepted happlied
      (hstays segment (List.mem_append_right _ (List.mem_cons_self ..)))

/-- A download that holds the first kernels is sound. -/
theorem Sound.of_holdsFirst (hG : G.InjectiveWithIndex) (hz : G.NonzeroWithIndex)
    (h : Download G header format segments s) (hne : segments ≠ [])
    (hholds : HoldsFirst G header (numKernelsAfter header segments.length) s) :
    Sound G header segments.length s where
  holds := hholds
  root_eq := by
    intro hall
    obtain ⟨hpos, hclosed⟩ := h.closed hne hall
    refine HoldsFirst.root_eq hG hz ?_ hpos hclosed
    have hcomplete : numKernelsAfter header segments.length = header.getNumKernels := by
      rw [SegmentIdentifier.countSegmentsRequired, ← getNumKernels_eq] at hall
      rw [numKernelsAfter, PIBD.kernelSegmentHeight] at *
      omega
    rwa [hcomplete] at hholds

/-- The last step of a download. -/
theorem Download.of_concat {segment : Segment TransactionKernel}
    (h : Download G header format (segments ++ [segment]) s') :
    ∃ s, Download G header format segments s ∧ segment.id.index.toNat = segments.length ∧
      segment.Deserialized ∧ run (applySegment G segment) s = (.ok true, s') := by
  obtain ⟨all, hall⟩ : ∃ all, all = segments ++ [segment] := ⟨_, rfl⟩
  rw [← hall] at h
  cases h with
  | start => exact absurd hall.symm (List.append_ne_nil_of_right_ne_nil _ (List.cons_ne_nil _ _))
  | apply hdownload _ hindex hdeserialized _ _ happlied =>
    obtain ⟨rfl, hlast⟩ := List.append_inj' hall rfl
    obtain rfl := List.head_eq_of_cons_eq hlast
    exact ⟨_, hdownload, hindex, hdeserialized, happlied⟩

/-- The first segments of a download are a download. -/
theorem Download.front {front back : List (Segment TransactionKernel)}
    (h : Download G header format (front ++ back) s) : ∃ t, Download G header format front t := by
  induction back using List.reverseRecOn generalizing s with
  | nil =>
    rw [List.append_nil] at h
    exact ⟨s, h⟩
  | append_singleton back segment ih =>
    rw [← List.append_assoc] at h
    obtain ⟨t, ht, -⟩ := h.of_concat
    exact ih ht

/-- **The last segment of a sound download stays in its block**: what stands behind the block
would have been appended. -/
theorem staysInBlock_of_holdsFirst {segment : Segment TransactionKernel}
    (h : Download G header format (segments ++ [segment]) s')
    (hholds : HoldsFirst G header (numKernelsAfter header (segments.length + 1)) s') :
    StaysInBlock header segment := by
  obtain ⟨s, hdownload, hindex, hdeserialized, happlied⟩ := h.of_concat
  obtain ⟨kernels, committed, hstores⟩ := hdownload.stores
  obtain ⟨added, -, hstores', hadds⟩ := hstores.run_applySegment happlied
  obtain ⟨kernels', committed', hstores'', hlength, -⟩ := hholds
  have hcount := hstores'.getNumKernels_eq.symm.trans hstores''.getNumKernels_eq
  rw [List.length_append, hlength] at hcount
  rw [StaysInBlock, hindex, ← hcount]
  rintro position hposition
  rw [← List.map_fst_zip hdeserialized.length_leaves.le] at hposition
  obtain ⟨leaf, hleaf, rfl⟩ := List.mem_map.mp hposition
  exact hadds.lt leaf hleaf

/-- **When a download of kernels is sound.** After each segment the range holds exactly the
first kernels that the header commits to, and after all segments it has the root of the header,
if and only if no segment supplied a leaf behind its block. -/
theorem download_sound_iff (hG : G.InjectiveWithIndex) (hz : G.NonzeroWithIndex)
    (h : Download G header format segments s) :
    (∀ front t, front <+: segments → front ≠ [] → Download G header format front t →
      Sound G header front.length t) ↔
        ∀ segment ∈ segments, StaysInBlock header segment := by
  constructor
  · rintro hsound segment hsegment
    obtain ⟨front, back, rfl⟩ := List.append_of_mem hsegment
    rw [← List.singleton_append, ← List.append_assoc] at h hsound
    obtain ⟨t, ht⟩ := h.front
    have hholds := (hsound _ t (List.prefix_append _ _)
      (List.append_ne_nil_of_right_ne_nil _ (List.cons_ne_nil _ _)) ht).holds
    rw [List.length_append, List.length_singleton] at hholds
    exact staysInBlock_of_holdsFirst ht hholds
  · rintro hstays front t hfront hne ht
    exact .of_holdsFirst hG hz ht hne
      (ht.holdsFirst hG fun segment hsegment => hstays segment (hfront.subset hsegment))

section SmallNet

open SmallNet

/-- The kernel segment of a header with one kernel. -/
def kernelSegment : Segment TransactionKernel where
  id := ⟨11, 0⟩
  hashPos := []
  hashes := []
  leafPos := [0]
  leaves := [coinbaseKernel 1]
  proof := ⟨[]⟩

/-- The same with a surplus kernel behind the block. -/
def surplusSegment : Segment TransactionKernel :=
  { kernelSegment with
    leafPos := [0, 1]
    leaves := [coinbaseKernel 1, coinbaseKernel 2] }

theorem download_singleton {segment : Segment TransactionKernel}
    (hheight : segment.id.height.toNat = PIBD.kernelSegmentHeight)
    (hindex : segment.id.index.toNat = 0) (hdeserialized : segment.Deserialized)
    (haccepted : (run (addKernelSegment G segment) (.reset header)).1 = .ok true)
    (happlied : (run (applySegment G segment) (.empty format)).1 = .ok true) :
    Download G header format [segment] (run (applySegment G segment) (.empty format)).2 :=
  .apply .start hheight hindex hdeserialized rfl haccepted (Prod.ext happlied rfl)

theorem download_kernelSegment :
    Download (smallNet .mainnet) genesisHeader .fixed [kernelSegment]
      (run (applySegment (smallNet .mainnet) kernelSegment) (.empty .fixed)).2 :=
  download_singleton rfl rfl ⟨by simp [kernelSegment], rfl, by simp [kernelSegment], rfl⟩
    (by decide +kernel) (by decide +kernel)

theorem download_surplusSegment :
    Download (smallNet .mainnet) genesisHeader .fixed [surplusSegment]
      (run (applySegment (smallNet .mainnet) surplusSegment) (.empty .fixed)).2 :=
  download_singleton rfl rfl
    ⟨by simp [surplusSegment, kernelSegment], rfl, by simp [surplusSegment], rfl⟩
    (by decide +kernel) (by decide +kernel)

/-- The download of one segment that stays in its block. -/
theorem download_sound_kernelSegment :
    (∀ segment ∈ [kernelSegment], StaysInBlock genesisHeader segment) ∧
      ∀ front t, front <+: [kernelSegment] → front ≠ [] →
        Download (smallNet .mainnet) genesisHeader .fixed front t →
          Sound (smallNet .mainnet) genesisHeader front.length t := by
  have hstays : ∀ segment ∈ [kernelSegment], StaysInBlock genesisHeader segment := by
    rintro segment hsegment
    obtain rfl := List.mem_singleton.mp hsegment
    rintro position hposition
    obtain rfl := List.mem_singleton.mp hposition
    decide +kernel
  exact ⟨hstays, (download_sound_iff (injectiveWithIndex .mainnet) (nonzeroWithIndex .mainnet)
    download_kernelSegment).mpr hstays⟩

/-- The surplus kernel is appended, although the header commits to one kernel only. -/
theorem not_sound_surplusSegment :
    Download (smallNet .mainnet) genesisHeader .fixed [surplusSegment]
        (run (applySegment (smallNet .mainnet) surplusSegment) (.empty .fixed)).2 ∧
      ¬Sound (smallNet .mainnet) genesisHeader 1
        (run (applySegment (smallNet .mainnet) surplusSegment) (.empty .fixed)).2 := by
  refine ⟨download_surplusSegment, fun hsound => ?_⟩
  have hdownload : Download (smallNet .mainnet) genesisHeader .fixed ([] ++ [surplusSegment])
      (run (applySegment (smallNet .mainnet) surplusSegment) (.empty .fixed)).2 :=
    download_surplusSegment
  have hlt : 1 < leafPos (numKernelsAfter genesisHeader 1) :=
    staysInBlock_of_holdsFirst hdownload hsound.holds 1
      (List.mem_cons_of_mem _ (List.mem_cons_self ..))
  exact absurd hlt (by decide +kernel)

end SmallNet

end KernelSync

end GrinPlusPlus
