import GrinPlusPlus.Pmmr.ApplyBlock
import Mathlib.Algebra.BigOperators.Group.List.Basic

/-!
# Ranges from which something was pruned

A range that has been pruned lacks the nodes under its pruned roots. It can be appended to all
the same, and has a root: what is read for a new parent is the peak to its left, and what is read
for the root are the peaks, and **a peak is under no pruned root but itself**, so it is there; and
its place in the file is the one it is looked up at, as the trees that were pruned are apart and
what is missing behind a position has its place behind it (`GrinPlusPlus.PruneList.add_shift_lt`).

So nothing that has the shape of a range (`GrinPlusPlus.PruneableFiles.Sound`) makes an append or
a root fail: `GrinPlusPlus.PruneableFiles.Sound.appendAll_ok`,
`GrinPlusPlus.PruneableFiles.Sound.root_ok`, and `GrinPlusPlus.KernelFiles.Shape.applyAll_ok`,
`GrinPlusPlus.KernelFiles.Shape.root_ok` for the kernels, of which nothing is pruned.
-/

namespace GrinPlusPlus

open PostOrder Mountain MMRHashUtil Exec

/-! ### What is missing -/

namespace PruneList

/-- No pruned root is under another one. -/
def Apart (l : PruneList) : Prop :=
  ∀ r ∈ l.prunedRoots, ∀ r' ∈ l.prunedRoots, Under r r' → r = r'

theorem apart_empty : empty.Apart :=
  fun _ hr => absurd hr List.not_mem_nil

/-- How many nodes are missing under a root. -/
def missing (root : ℕ) : ℕ :=
  2 * (2 ^ Index.calculateHeight root - 1)

theorem missing_add_two (root : ℕ) : missing root + 2 = 2 ^ (height root + 1) := by
  have hpos : 0 < 2 ^ height root := Nat.two_pow_pos _
  rw [missing, Index.calculateHeight, pow_succ]
  omega

/-- What is missing is missing up to a position or behind it. -/
theorem getShift_add (l : PruneList) (p : ℕ) :
    l.getShift p + ((l.prunedRoots.filter fun r => !decide (r ≤ p)).map missing).sum =
      l.getTotalShift := by
  have hperm := (List.filter_append_perm (fun r => decide (r ≤ p)) l.prunedRoots).map missing
  rw [List.map_append] at hperm
  have hsum := hperm.sum_eq
  rwa [List.sum_append] at hsum

/-- What is missing under roots that begin from a position on has its place there. -/
theorem add_sum_missing_le {roots : List ℕ} {start size : ℕ} (hsorted : roots.Pairwise (· < ·))
    (hapart : ∀ r ∈ roots, ∀ r' ∈ roots, Under r r' → r = r') (hlt : ∀ r ∈ roots, r < size)
    (hstart : ∀ r ∈ roots, start + 2 ^ (height r + 1) ≤ r + 2) (hle : start ≤ size) :
    start + (roots.map missing).sum + roots.length ≤ size := by
  induction roots generalizing start with
  | nil => exact hle
  | cons r roots ih =>
    rw [List.pairwise_cons] at hsorted
    have hmissing := missing_add_two r
    have hfirst := hstart r List.mem_cons_self
    have hrest := @ih (r + 1) hsorted.2
      (fun a ha b hb => hapart a (List.mem_cons_of_mem _ ha) b (List.mem_cons_of_mem _ hb))
      (fun a ha => hlt a (List.mem_cons_of_mem _ ha))
      (fun a ha => by
        -- the tree of the next root does not have this one in it
        by_contra hge
        have hra := hsorted.1 a ha
        exact hra.ne (hapart r List.mem_cons_self a (List.mem_cons_of_mem _ ha)
          ⟨by omega, hra.le⟩))
      (hlt r List.mem_cons_self)
    rw [List.map_cons, List.sum_cons, List.length_cons]
    omega

variable {l : PruneList} {file : List Hash} {p size : ℕ}

/-- A position that is under no root but itself is in the file. -/
theorem Apart.sub_shift_lt (h : l.Apart) (hlt : ∀ r ∈ l.prunedRoots, r < size)
    (hsize : l.getTotalShift + file.length = size) (hp : p < size)
    (hself : ∀ r ∈ l.prunedRoots, Under p r → r = p) : p - l.getShift p < file.length := by
  have hsum := l.getShift_add p
  have hbehind := @add_sum_missing_le (l.prunedRoots.filter fun r => !decide (r ≤ p)) (p + 1)
    size (l.sorted.filter _)
    (fun a ha b hb => h a (List.mem_of_mem_filter ha) b (List.mem_of_mem_filter hb))
    (fun a ha => hlt a (List.mem_of_mem_filter ha))
    (fun a ha => by
      obtain ⟨hmem, hgt⟩ := List.mem_filter.1 ha
      have hpa : p < a := by simpa using hgt
      by_contra hge
      exact hpa.ne' (hself a hmem ⟨by omega, hpa.le⟩)) hp
  have hbefore : l.getShift p ≤ p := by
    have hle := @add_sum_missing_le (l.prunedRoots.filter fun r => decide (r ≤ p)) 0 (p + 1)
      (l.sorted.filter _)
      (fun a ha b hb => h a (List.mem_of_mem_filter ha) b (List.mem_of_mem_filter hb))
      (fun a ha => by simpa [Nat.lt_succ_iff] using (List.mem_filter.1 ha).2)
      (fun a _ => by rw [Nat.zero_add]; exact two_pow_height_le a) (Nat.zero_le _)
    rw [Nat.zero_add] at hle
    rcases hroots : l.prunedRoots.filter fun r => decide (r ≤ p) with _ | ⟨r, roots⟩
    · rw [getShift, hroots]
      exact Nat.zero_le p
    · have hshift : l.getShift p =
          ((l.prunedRoots.filter fun r => decide (r ≤ p)).map missing).sum := rfl
      rw [hshift]
      rw [hroots, List.length_cons] at hle
      rw [hroots]
      omega
  omega

theorem Apart.getHashAt_ok (h : l.Apart) (hlt : ∀ r ∈ l.prunedRoots, r < size)
    (hsize : l.getTotalShift + file.length = size) (hp : p < size)
    (hself : ∀ r ∈ l.prunedRoots, Under p r → r = p) :
    ∃ hash, getHashAt file p (some l) = .ok hash := by
  have hcompacted : l.isCompacted p = false := by
    rw [isCompacted, Bool.and_eq_false_iff]
    cases hpruned : l.isPruned p with
    | false => exact .inl rfl
    | true =>
      obtain ⟨r, hr, hunder⟩ := List.any_eq_true.1 hpruned
      have hu : r + 2 ≤ p + 2 ^ (height r + 1) ∧ p ≤ r := of_decide_eq_true hunder
      obtain rfl := hself r hr hu
      exact .inr (by simpa [isPrunedRoot] using hr)
  rw [getHashAt, hcompacted, if_neg Bool.false_ne_true, getDataAt,
    List.getElem?_eq_getElem (h.sub_shift_lt hlt hsize hp hself)]
  exact ⟨_, rfl⟩

end PruneList

/-! ### Appending and roots -/

namespace MMRHashUtil

variable {G : Global} {l : PruneList} {file : List Hash} {n : ℕ}

/-- The parents of a leaf find their children. -/
theorem addParents_total (h : l.Apart) (hlt : ∀ r ∈ l.prunedRoots, r < leafPos n) {fuel : ℕ}
    (hfrom : leafPos n < l.getTotalShift + file.length)
    (hto : l.getTotalShift + file.length ≤ leafPos (n + 1)) :
    ∃ file', addParents G (some l) fuel file (l.getTotalShift + file.length) = .ok file' := by
  induction fuel generalizing file with
  | zero => exact ⟨file, rfl⟩
  | succ fuel ih =>
    rw [addParents, Index.calculateHeight]
    split_ifs with hzero
    · exact ⟨file, rfl⟩
    · obtain ⟨k, hk⟩ := Nat.exists_eq_succ_of_ne_zero hzero
      obtain ⟨hge, -, -⟩ := height_children hk
      have h2 : 0 < 2 ^ k := Nat.two_pow_pos k
      have h3 := two_pow_add_two k
      have h4 : 2 ^ (k + 1) = 2 * 2 ^ k := pow_succ' 2 k
      have hlt' : ∀ r ∈ l.prunedRoots, r < l.getTotalShift + file.length :=
        fun r hr => (hlt r hr).trans hfrom
      -- the left child is under no other position that was there, the right one under none
      obtain ⟨left, hleft⟩ := h.getHashAt_ok hlt' rfl
        (p := l.getTotalShift + file.length - 2 ^ (k + 1)) (by omega)
        fun r hr hu => Under.eq_of_left_child hk (hlt' r hr) hu
      obtain ⟨right, hright⟩ := h.getHashAt_ok hlt' rfl
        (p := l.getTotalShift + file.length - 1) (by omega) fun r hr hu => by
          have := hlt r hr
          have := hu.2
          omega
      rw [hk, Index.getLeftChild, Index.getRightChild, hleft, hright]
      have hnext : l.getTotalShift + file.length < leafPos (n + 1) := by
        refine lt_of_le_of_ne hto fun heq => hzero ?_
        rw [heq, height_leafPos]
      have hlen : l.getTotalShift + file.length + 1 = l.getTotalShift +
          (file ++ [hashParentWithIndex G left right (l.getTotalShift + file.length)]).length := by
        rw [List.length_append, List.length_singleton, Nat.add_assoc]
      obtain ⟨file', hfile'⟩ := @ih
        (file ++ [hashParentWithIndex G left right (l.getTotalShift + file.length)])
        (by omega) (by omega)
      rw [← hlen] at hfile'
      exact ⟨file', hfile'⟩

/-- **A leaf can be added** to a range from which something was pruned. -/
theorem addHashes_total (h : l.Apart) (hlt : ∀ r ∈ l.prunedRoots, r < leafPos n)
    (hsize : l.getTotalShift + file.length = leafPos n) (leaf : List UInt8) :
    ∃ file', addHashes G file leaf (some l) = .ok file' := by
  have hsucc := leafPos_lt_succ n
  have hposition : file.length + l.getTotalShift = leafPos n := by omega
  rw [addHashes, Option.map_some, Option.getD_some, hposition]
  have hlen : leafPos n + 1 =
      l.getTotalShift + (file ++ [hashLeafWithIndex G leaf (leafPos n)]).length := by
    rw [List.length_append, List.length_singleton]
    omega
  rw [hlen]
  exact addParents_total h hlt (by omega) (by omega)

/-- **There is a root** of a range from which something was pruned. -/
theorem root_total (h : l.Apart) (hlt : ∀ r ∈ l.prunedRoots, r < leafPos n)
    (hsize : l.getTotalShift + file.length = leafPos n) :
    ∃ hash, root G file (leafPos n) (some l) = .ok hash := by
  have hread : ∀ peaks : List ℕ, (∀ p ∈ peaks, p < leafPos n ∧
      ∀ r ∈ l.prunedRoots, Under p r → r = p) →
      ∃ hashes, peakHashes file (some l) peaks = .ok hashes := by
    intro peaks hpeaks
    induction peaks with
    | nil => exact ⟨[], rfl⟩
    | cons peak peaks ih =>
      obtain ⟨hashes, hh⟩ := ih fun p hp => hpeaks p (List.mem_cons_of_mem _ hp)
      obtain ⟨hpeak, hself⟩ := hpeaks peak List.mem_cons_self
      rw [peakHashes, hh, getDataAt, getShiftedIndex,
        List.getElem?_eq_getElem (h.sub_shift_lt hlt hsize hpeak hself)]
      exact ⟨_, rfl⟩
  rw [root]
  split
  · exact ⟨_, rfl⟩
  · obtain ⟨hashes, hh⟩ := hread (getPeakIndices (leafPos n)) fun p hp => by
      rw [getPeakIndices_leafPos] at hp
      have hbound := (peaksFrom_bounds hp).2
      refine ⟨by omega, fun r hr hu => ?_⟩
      exact eq_of_under_peak (lt_two_pow_bitLength_leafPos n) hp (hlt r hr) hu
    rw [hh]
    exact ⟨_, rfl⟩

end MMRHashUtil

namespace PruneableFiles

variable {α : Type} {G : Global} {serialized : α → List UInt8} {f f' : PruneableFiles α} {n : ℕ}

/-- The files have the shape of a range, from which some trees were pruned that are apart. -/
structure Sound (f : PruneableFiles α) (n : ℕ) : Prop extends Shape f n where
  /-- The pruned trees are apart. -/
  apart : f.pruneList.Apart

/-- A range that was never pruned is sound. -/
theorem RangeOf.sound {leaves : List α} (h : RangeOf G serialized f leaves) :
    Sound f leaves.length :=
  ⟨h.shape, h.pruneList_eq ▸ PruneList.apart_empty⟩

theorem Sound.removeAll (h : Sound f n) (leaves : List ℕ) : Sound (f.removeAll leaves) n :=
  ⟨h.toShape.removeAll leaves, h.apart⟩

theorem Sound.append_ok (h : Sound f n) (object : α) :
    ∃ f', f.append G serialized object = .ok f' ∧ Sound f' (n + 1) := by
  obtain ⟨file, hfile⟩ := addHashes_total (G := G) h.apart h.roots_lt h.size (serialized object)
  have happend : f.append G serialized object = .ok
      { f with
        leafSet := LeafSet.add (Index.calculateLeafIndex f.getSize) f.leafSet
        dataFile := f.dataFile ++ [object]
        hashFile := file } := by
    rw [append, hfile]
    rfl
  exact ⟨_, happend, (h.toShape.of_append happend).1, h.apart⟩

/-- **Objects can be appended.** -/
theorem Sound.appendAll_ok (h : Sound f n) (objects : List α) :
    ∃ f', f.appendAll G serialized objects = .ok f' ∧ Sound f' (n + objects.length) := by
  induction objects generalizing f n with
  | nil => exact ⟨f, rfl, h⟩
  | cons object objects ih =>
    obtain ⟨f₁, h₁, hsound⟩ :
        ∃ f₁, f.append G serialized object = .ok f₁ ∧ Sound f₁ (n + 1) := h.append_ok object
    obtain ⟨f₂, h₂, hsound₂⟩ := ih hsound
    refine ⟨f₂, ?_, ?_⟩
    · rw [appendAll, h₁]
      exact h₂
    · rwa [List.length_cons, show n + (objects.length + 1) = n + 1 + objects.length by omega]

/-- **There is a root.** -/
theorem Sound.root_ok (h : Sound f n) : ∃ hash, f.root G (leafPos n) = .ok hash :=
  root_total h.apart h.roots_lt h.size

end PruneableFiles

namespace KernelFiles

variable {G : Global} {f : KernelFiles} {m : ℕ}

theorem Shape.applyKernel_ok (h : Shape f m) (kernel : TransactionKernel) :
    ∃ f', f.applyKernel G kernel = .ok f' ∧ Shape f' (m + 1) := by
  obtain ⟨file, hfile⟩ := @addHashes_total G .empty f.hashFile m PruneList.apart_empty
    (fun _ hr => absurd hr List.not_mem_nil) ((Nat.zero_add _).trans h.size) kernel.serialize
  rw [addHashes_empty] at hfile
  have happly : f.applyKernel G kernel = .ok ⟨file, f.dataFile ++ [kernel]⟩ := by
    rw [applyKernel, hfile]
    rfl
  have hone : f.applyAll G [kernel] = .ok ⟨file, f.dataFile ++ [kernel]⟩ := by
    rw [applyAll, happly]
    rfl
  exact ⟨_, happly, (h.of_applyAll hone).1⟩

/-- **Kernels can be appended.** -/
theorem Shape.applyAll_ok (h : Shape f m) (kernels : List TransactionKernel) :
    ∃ f', f.applyAll G kernels = .ok f' ∧ Shape f' (m + kernels.length) := by
  induction kernels generalizing f m with
  | nil => exact ⟨f, rfl, h⟩
  | cons kernel kernels ih =>
    obtain ⟨f₁, h₁, hshape⟩ := h.applyKernel_ok (G := G) kernel
    obtain ⟨f₂, h₂, hshape₂⟩ := ih hshape
    refine ⟨f₂, ?_, ?_⟩
    · rw [applyAll, h₁]
      exact h₂
    · rwa [List.length_cons, show m + (kernels.length + 1) = m + 1 + kernels.length by omega]

/-- **There is a root.** -/
theorem Shape.root_ok (h : Shape f m) : ∃ hash, f.root G (leafPos m) = .ok hash := by
  obtain ⟨hash, hhash⟩ := @root_total G .empty f.hashFile m PruneList.apart_empty
    (fun _ hr => absurd hr List.not_mem_nil) ((Nat.zero_add _).trans h.size)
  rw [root_empty] at hhash
  exact ⟨hash, hhash⟩

end KernelFiles

end GrinPlusPlus
