import GrinPlusPlus.Core.SmallNet
import GrinPlusPlus.Lib.Peaks
import GrinPlusPlus.Pmmr.HashUtil

/-!
# The hash file and the recursive definition

`MMRHashUtil::AddHashes` closes the trees that a leaf completes by looking at the height of the
next position; `MMRHashUtil::Root` reads the peaks of any earlier size off the same file. Neither
mentions a tree. Here both are compared with the recursive definition of `Mountain.rangeRoot`:
whatever was appended, the file has the hashes of the leaves and of the parents in their places
(`GrinPlusPlus.MMRHashUtil.addLeaves_ok`), and the root at the position of leaf `k` is the root
over the first `k` leaves alone (`GrinPlusPlus.MMRHashUtil.root_leafPosition`) – which is what the
kernel history is validated with, one header at a time.
-/

namespace GrinPlusPlus

namespace MMRHashUtil

open PostOrder Mountain

variable {G : Global}

/-- A file to which leaves were added, one after the other. -/
def addLeaves (G : Global) (leaves : List (List UInt8)) : Except Exc (List Hash) :=
  leaves.foldlM (fun file leaf => addHashes G file leaf none) []

/-- Every history of a file is a range of its leaves. -/
theorem addLeaves_ok (leaves : List (List UInt8)) :
    ∃ file, addLeaves G leaves = .ok file ∧ IsRangeOf G file leaves := by
  have h : ∀ rest before file, IsRangeOf G file before →
      ∃ file', List.foldlM (fun file leaf => addHashes G file leaf none) file rest = .ok file' ∧
        IsRangeOf G file' (before ++ rest) := by
    intro rest
    induction rest with
    | nil =>
      intro before file hfile
      exact ⟨file, rfl, by rwa [List.append_nil]⟩
    | cons leaf rest ih =>
      intro before file hfile
      obtain ⟨next, hnext, hrange, -⟩ := addHashes_ok hfile leaf
      obtain ⟨file', hrun, hfile'⟩ := ih (before ++ [leaf]) next hrange
      refine ⟨file', ?_, by rwa [List.append_assoc] at hfile'⟩
      rw [List.foldlM_cons, hnext]
      exact hrun
  exact h leaves [] [] isRange_nil

/-- **Historical roots**: the root at the position of leaf `k` is the root, by definition, of the
first `k` leaves. -/
theorem root_leafPosition (hG : G.NonzeroWithIndex) {file : List Hash}
    {leaves : List (List UInt8)} (h : IsRangeOf G file leaves) {k : ℕ} (hk : k ≤ leaves.length) :
    ∃ r, rangeRoot (nodeHash G) Hash.zero (leaves.take k) = some r ∧
      root G file (leafPosition k) none = .ok r := by
  have hzero : ∀ p x, nodeHash G p x ≠ Hash.zero := by
    rintro p (leaf | ⟨left, right⟩)
    · exact hG.leaf p leaf
    · exact hG.parent p left right
  have hrange := h.take k hk
  have hlength : (leaves.take k).length = k := by rw [List.length_take, Nat.min_eq_left hk]
  have hbits : (leaves.take k).length < 2 ^ bitLength (leafPos k) := by
    rw [hlength]
    exact lt_two_pow_bitLength_leafPos k
  obtain ⟨peaks, -, hpeaks⟩ := hrange.peaks (a := 0) hbits (by omega)
  rw [Nat.mul_zero, leafPos_zero, hlength] at hpeaks
  have hroot := hrange.root hzero hbits (by rwa [hlength])
  rw [hlength] at hroot
  refine ⟨_, hroot, ?_⟩
  rw [leafPosition, ← root_take, MMRHashUtil.root, getPeakIndices_leafPos,
    peakHashes_eq_ok.2 hpeaks]
  split_ifs with hsize
  · -- no leaves, no peaks
    rw [hsize] at hpeaks
    cases hpeaks
    rfl
  · rfl

/-- **The incremental range is the recursive one, for every history**: the file has
`2 * n - popcount n` entries, those of the leaves and of the parents are hashed with their
positions, and every historical root is the root of the leaves that were there. -/
theorem addLeaves_recursive (hG : G.NonzeroWithIndex) (leaves : List (List UInt8)) :
    ∃ file, addLeaves G leaves = .ok file ∧
      file.length = 2 * leaves.length - (Nat.digits 2 leaves.length).sum ∧
      (∀ i leaf, leaves[i]? = some leaf →
        file[leafPosition i]? = some (hashLeafWithIndex G leaf (leafPosition i))) ∧
      (∀ position < file.length, Index.calculateHeight position ≠ 0 →
        ∃ left right,
          file[Index.getLeftChild position (Index.calculateHeight position)]? = some left ∧
          file[Index.getRightChild position]? = some right ∧
          file[position]? = some (hashParentWithIndex G left right position)) ∧
      ∀ k ≤ leaves.length, ∃ r, rangeRoot (nodeHash G) Hash.zero (leaves.take k) = some r ∧
        root G file (leafPosition k) none = .ok r := by
  obtain ⟨file, hrun, hfile⟩ := addLeaves_ok (G := G) leaves
  refine ⟨file, hrun, ?_, hfile.leaf, fun position hlt hheight => ?_,
    fun k hk => root_leafPosition hG hfile hk⟩
  · rw [hfile.length_eq, leafPos, ones_eq_sum_digits]
  · obtain ⟨h, hh⟩ := Nat.exists_eq_succ_of_ne_zero hheight
    have hheight' : height position = h + 1 := hh
    obtain ⟨hge, -, -⟩ := height_children hheight'
    have hpos := Nat.two_pow_pos h
    have hfour := two_pow_add_two h
    have hleft : position - 2 ^ (h + 1) < file.length := by omega
    have hright : position - 1 < file.length := by omega
    refine ⟨_, _, ?_, List.getElem?_eq_getElem hright,
      hfile.parent position h hlt hheight' _ _ (List.getElem?_eq_getElem hleft)
        (List.getElem?_eq_getElem hright)⟩
    rw [Index.getLeftChild, hh]
    exact List.getElem?_eq_getElem hleft

/-- Three leaves on the small network, and the root over the first two. -/
theorem addLeaves_recursive_threeLeaves :
    ∃ file r, addLeaves (smallNet .mainnet) [[1], [2], [3]] = .ok file ∧
      rangeRoot (nodeHash (smallNet .mainnet)) Hash.zero [[1], [2]] = some r ∧
      root (smallNet .mainnet) file (leafPosition 2) none = .ok r := by
  obtain ⟨file, hrun, -, -, -, hroot⟩ :=
    addLeaves_recursive (SmallNet.nonzeroWithIndex .mainnet) [[1], [2], [3]]
  obtain ⟨r, hr, hr'⟩ := hroot 2 (by decide)
  exact ⟨file, r, hrun, hr, hr'⟩

end MMRHashUtil

end GrinPlusPlus
