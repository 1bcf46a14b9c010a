import GrinPlusPlus.Lib.Subtrees
import GrinPlusPlus.Pmmr.SegmentTree

/-!
# Prune lists on bitmaps

`PruneList` as it is written: two bitmaps of 32-bit numbers, the pruned roots and the positions
under them (`m_prunedCache`), two vectors of sums over the roots, and the file the roots are
flushed to. The bitmaps are those of CRoaring, which the model takes as a parameter
(`GrinPlusPlus.Cached.Roaring`).

Positions are stored one-based, and cut to 32 bits: position `2 ^ 32` looks like position `0`.
So every statement stays below that, and a range of `2 ^ 31` leaves just fits.

`GrinPlusPlus.Cached.PruneList.add_computes`: adding leaves, in any order and again and again,
leaves the roots of the maximal complete subtrees. The whole point is the invariant
`GrinPlusPlus.Cached.PruneList.Represents`: the cache holds *every* complete node, and not only
what is under the roots of a file, so a look at the sibling tells how far to climb.
-/

namespace GrinPlusPlus.Cached

open PostOrder

/-! ### Bitmaps -/

/-- `Roaring`, as far as prune lists use it: a set of 32-bit numbers that is read in ascending
order, and bytes that it is written to and read from. -/
structure Roaring where
  /-- The bitmaps. -/
  Bitmap : Type
  /-- Bitmaps in the portable format. -/
  Bytes : Type
  /-- `Roaring()`, and `roaring_bitmap_create_with_capacity`. -/
  empty : Bitmap
  contains : Bitmap → UInt32 → Bool
  add : Bitmap → UInt32 → Bitmap
  remove : Bitmap → UInt32 → Bitmap
  isEmpty : Bitmap → Bool
  maximum : Bitmap → UInt32
  rank : Bitmap → UInt32 → ℕ
  /-- What an iteration over the bitmap yields. -/
  elements : Bitmap → List UInt32
  runOptimize : Bitmap → Bitmap
  getSizeInBytes : Bitmap → ℕ
  write : Bitmap → Bytes
  /-- `Roaring::readSafe`, which throws when the bytes are not a bitmap. -/
  readSafe : Bytes → Option Bitmap
  /-- The iteration ascends. -/
  elements_ascend (b : Bitmap) : (elements b).Pairwise fun x y => x.toNat < y.toNat
  elements_empty : elements empty = []
  contains_iff (b : Bitmap) (x : UInt32) : contains b x = true ↔ x ∈ elements b
  mem_add (b : Bitmap) (x y : UInt32) : x ∈ elements (add b y) ↔ x = y ∨ x ∈ elements b
  mem_remove (b : Bitmap) (x y : UInt32) :
    x ∈ elements (remove b y) ↔ x ≠ y ∧ x ∈ elements b
  isEmpty_eq (b : Bitmap) : isEmpty b = (elements b).isEmpty
  /-- The maximum of an empty bitmap is zero. -/
  maximum_eq (b : Bitmap) : maximum b = (elements b).getLastD 0
  /-- The rank counts the elements up to a number, and that number. -/
  rank_eq (b : Bitmap) (x : UInt32) :
    rank b x = (elements b).countP fun y => decide (y.toNat ≤ x.toNat)
  elements_runOptimize (b : Bitmap) : elements (runOptimize b) = elements b
  /-- The portable format has a header. -/
  getSizeInBytes_pos (b : Bitmap) : 0 < getSizeInBytes b
  readSafe_write (b : Bitmap) : ∃ b', readSafe (write b) = some b' ∧ elements b' = elements b

namespace Roaring

variable (R : Roaring)

@[simp] theorem contains_empty (x : UInt32) : R.contains R.empty x = false := by
  rw [Bool.eq_false_iff]
  intro h
  rw [R.contains_iff, R.elements_empty] at h
  exact absurd h List.not_mem_nil

@[simp] theorem contains_add (b : R.Bitmap) (x y : UInt32) :
    R.contains (R.add b y) x = true ↔ x = y ∨ R.contains b x = true := by
  rw [R.contains_iff, R.contains_iff, R.mem_add]

@[simp] theorem contains_remove (b : R.Bitmap) (x y : UInt32) :
    R.contains (R.remove b y) x = true ↔ x ≠ y ∧ R.contains b x = true := by
  rw [R.contains_iff, R.contains_iff, R.mem_remove]

@[simp] theorem contains_runOptimize (b : R.Bitmap) (x : UInt32) :
    R.contains (R.runOptimize b) x = true ↔ R.contains b x = true := by
  rw [R.contains_iff, R.contains_iff, R.elements_runOptimize]

theorem isEmpty_iff (b : R.Bitmap) : R.isEmpty b = true ↔ R.elements b = [] := by
  rw [R.isEmpty_eq, List.isEmpty_iff]

variable {R}

/-- **A bitmap is what it contains**, as far as an iteration sees it. -/
theorem elements_eq_of_mem {b : R.Bitmap} {xs : List UInt32}
    (hascend : xs.Pairwise fun x y => x.toNat < y.toNat) (h : ∀ x, x ∈ R.elements b ↔ x ∈ xs) :
    R.elements b = xs := by
  have hnodup : ∀ {ys : List UInt32}, (ys.Pairwise fun x y => x.toNat < y.toNat) → ys.Nodup :=
    fun hys => hys.imp fun {x y} hlt heq => by
      rw [heq] at hlt
      exact hlt.false
  refine List.Perm.eq_of_pairwise (fun x y _ _ h1 h2 => absurd h1 (by omega))
    (R.elements_ascend b) hascend ?_
  rw [List.perm_ext_iff_of_nodup (hnodup (R.elements_ascend b)) (hnodup hascend)]
  exact h

theorem elements_eq_of_contains {b b' : R.Bitmap}
    (h : ∀ x, R.contains b x = true ↔ R.contains b' x = true) : R.elements b = R.elements b' := by
  refine elements_eq_of_mem (R.elements_ascend b') fun x => ?_
  rw [← R.contains_iff, ← R.contains_iff, h]

theorem le_maximum {b : R.Bitmap} {x : UInt32} (hx : x ∈ R.elements b) :
    x.toNat ≤ (R.maximum b).toNat := by
  have hascend := R.elements_ascend b
  rw [R.maximum_eq]
  rcases (R.elements b).eq_nil_or_concat with hnil | ⟨init, y, hconcat⟩
  · rw [hnil] at hx
    exact absurd hx List.not_mem_nil
  · rw [List.concat_eq_append] at hconcat
    rw [hconcat] at hx hascend ⊢
    rw [List.getLastD_concat]
    rcases List.mem_append.1 hx with hinit | hlast
    · exact ((List.pairwise_append.1 hascend).2.2 x hinit y (List.mem_singleton_self y)).le
    · rw [List.mem_singleton.1 hlast]

/-- A number behind the maximum comes last. -/
theorem elements_add_of_lt {b : R.Bitmap} {y : UInt32}
    (h : ∀ x ∈ R.elements b, x.toNat < y.toNat) :
    R.elements (R.add b y) = R.elements b ++ [y] := by
  refine elements_eq_of_mem (List.pairwise_append.2 ⟨R.elements_ascend b,
    List.pairwise_singleton _ _, fun x hx z hz => ?_⟩) fun x => ?_
  · rw [List.mem_singleton.1 hz]
    exact h x hx
  · rw [R.mem_add, List.mem_append, List.mem_singleton, or_comm]

end Roaring

/-! ### A concrete kind of bitmap -/

/-- A number in an ascending list. -/
def insertWord (x : UInt32) : List UInt32 → List UInt32
  | [] => [x]
  | y :: ys =>
    if x.toNat < y.toNat then x :: y :: ys
    else if x = y then y :: ys
    else y :: insertWord x ys

theorem mem_insertWord {x z : UInt32} {ys : List UInt32} :
    z ∈ insertWord x ys ↔ z = x ∨ z ∈ ys := by
  induction ys with
  | nil => rw [insertWord, List.mem_singleton, or_iff_left List.not_mem_nil]
  | cons y ys ih =>
    rw [insertWord]
    split_ifs with hlt heq
    · rw [List.mem_cons]
    · rw [heq, List.mem_cons, or_self_left]
    · rw [List.mem_cons, ih, List.mem_cons, or_left_comm]

theorem insertWord_ascends {x : UInt32} {ys : List UInt32}
    (h : ys.Pairwise fun x y => x.toNat < y.toNat) :
    (insertWord x ys).Pairwise fun x y => x.toNat < y.toNat := by
  induction ys with
  | nil => exact List.pairwise_singleton _ _
  | cons y ys ih =>
    obtain ⟨hfirst, hrest⟩ := List.pairwise_cons.1 h
    rw [insertWord]
    split_ifs with hlt heq
    · refine List.pairwise_cons.2 ⟨fun z hz => ?_, h⟩
      rcases List.mem_cons.1 hz with rfl | hz
      · exact hlt
      · exact hlt.trans (hfirst z hz)
    · exact h
    · refine List.pairwise_cons.2 ⟨fun z hz => ?_, ih hrest⟩
      rcases mem_insertWord.1 hz with rfl | hz
      · have hne : z.toNat ≠ y.toNat := fun h => heq (UInt32.toNat_inj.1 h)
        omega
      · exact hfirst z hz

/-- Ascending lists as bitmaps. -/
def Roaring.ascending : Roaring where
  Bitmap := { xs : List UInt32 // xs.Pairwise fun x y => x.toNat < y.toNat }
  Bytes := { xs : List UInt32 // xs.Pairwise fun x y => x.toNat < y.toNat }
  empty := ⟨[], List.Pairwise.nil⟩
  contains b x := b.1.contains x
  add b x := ⟨insertWord x b.1, insertWord_ascends b.2⟩
  remove b x := ⟨b.1.filter (· != x), b.2.filter _⟩
  isEmpty b := b.1.isEmpty
  maximum b := b.1.getLastD 0
  rank b x := b.1.countP fun y => decide (y.toNat ≤ x.toNat)
  elements b := b.1
  runOptimize b := b
  getSizeInBytes b := 8 + 2 * b.1.length
  write b := b
  readSafe bytes := some bytes
  elements_ascend b := b.2
  elements_empty := rfl
  contains_iff b x := List.contains_iff_mem
  mem_add b x y := mem_insertWord
  mem_remove b x y := by rw [List.mem_filter, bne_iff_ne, and_comm]
  isEmpty_eq b := rfl
  maximum_eq b := rfl
  rank_eq b x := rfl
  elements_runOptimize b := rfl
  getSizeInBytes_pos b := by omega
  readSafe_write b := ⟨b, rfl, rfl⟩

/-! ### Prune lists -/

/-- `PruneList`, with the file at `m_filePath`. The sums are sums of 64 bits in the source; over
32-bit positions they stay far below that. -/
structure PruneList (R : Roaring) where
  /-- The file, when there is one. -/
  file : Option R.Bytes
  /-- `m_prunedRoots`. -/
  prunedRoots : R.Bitmap
  /-- `m_prunedCache`. -/
  prunedCache : R.Bitmap
  /-- `m_shiftCache`. -/
  shiftCache : List ℕ
  /-- `m_leafShiftCache`. -/
  leafShiftCache : List ℕ
  /-- `m_dirty`. -/
  dirty : Bool

/-- `mmrIndex.GetPosition() + 1`, as a bitmap takes it. -/
def wirePos (mmrIndex : Index) : UInt32 :=
  UInt32.ofNat (mmrIndex.position + 1)

/-- `Index::At(rootWirePos - 1)`. No position has the number zero. -/
def rootIndex (rootWirePos : UInt32) : Index :=
  Index.ofPosition (rootWirePos.toNat - 1)

namespace PruneList

variable {R : Roaring}

/-- `PruneList::AddRootToPrunedCache`. -/
def addRootToPrunedCache (mmrIndex : Index) (prunedCache : R.Bitmap) : R.Bitmap :=
  let rootPos := mmrIndex.position
  let nodeCount := 2 ^ (mmrIndex.height + 1) - 1
  let firstPos := rootPos + 1 - nodeCount
  (List.range' firstPos (rootPos + 1 - firstPos)).foldl
    (fun cache pos => R.add cache (UInt32.ofNat (pos + 1))) prunedCache

/-- `PruneList::BuildPrunedCache`. -/
def buildPrunedCache (l : PruneList R) : PruneList R :=
  if R.isEmpty l.prunedRoots then { l with prunedCache := R.empty }
  else
    { l with
      prunedCache := R.runOptimize ((R.elements l.prunedRoots).foldl
        (fun cache rootWirePos => addRootToPrunedCache (rootIndex rootWirePos) cache) R.empty) }

/-- What a root adds to the shift. -/
def shiftOf (mmrIndex : Index) : ℕ :=
  2 * (2 ^ mmrIndex.height - 1)

/-- What a root adds to the shift of the leaves. -/
def leafShiftOf (mmrIndex : Index) : ℕ :=
  if mmrIndex.height = 0 then 0 else 2 ^ mmrIndex.height

/-- The loop of `PruneList::BuildShiftCaches`. -/
def shiftCachesFrom (totalShift totalLeafShift : ℕ) (shiftCache leafShiftCache : List ℕ) :
    List UInt32 → List ℕ × List ℕ
  | [] => (shiftCache, leafShiftCache)
  | rootWirePos :: rest =>
    let totalShift := totalShift + shiftOf (rootIndex rootWirePos)
    let totalLeafShift := totalLeafShift + leafShiftOf (rootIndex rootWirePos)
    shiftCachesFrom totalShift totalLeafShift (shiftCache ++ [totalShift])
      (leafShiftCache ++ [totalLeafShift]) rest

/-- `PruneList::BuildShiftCaches`. -/
def buildShiftCaches (l : PruneList R) : PruneList R :=
  if R.isEmpty l.prunedRoots then { l with shiftCache := [], leafShiftCache := [] }
  else
    let caches := shiftCachesFrom 0 0 [] [] (R.elements l.prunedRoots)
    { l with shiftCache := caches.1, leafShiftCache := caches.2 }

/-- `PruneList::RebuildCaches`. -/
def rebuildCaches (l : PruneList R) : PruneList R :=
  l.buildPrunedCache.buildShiftCaches

/-- A list of roots without its caches, as the constructor makes it. -/
def ofRoots (file : Option R.Bytes) (prunedRoots : R.Bitmap) : PruneList R :=
  ⟨file, prunedRoots, R.empty, [], [], false⟩

/-- `PruneList::Load`, when the file can be read. -/
def load : Option R.Bytes → Option (PruneList R)
  | some data => (R.readSafe data).map fun prunedRoots =>
    (ofRoots (some data) prunedRoots).rebuildCaches
  | none => some (ofRoots none R.empty)

/-- `PruneList::Flush`, when the file can be written. -/
def flush (l : PruneList R) : PruneList R :=
  if l.dirty then
    let l := { l with prunedRoots := R.runOptimize l.prunedRoots }
    if 0 < R.getSizeInBytes l.prunedRoots then
      { rebuildCaches { l with file := some (R.write l.prunedRoots) } with dirty := false }
    else { l with dirty := false }
  else l

/-- `PruneList::Rollback`: a file that is no bitmap leaves everything as it is. -/
def rollback (l : PruneList R) : PruneList R :=
  match l.file with
  | some data =>
    match R.readSafe data with
    | some prunedRoots =>
      { rebuildCaches { l with prunedRoots := prunedRoots } with dirty := false }
    | none => l
  | none => { rebuildCaches { l with prunedRoots := R.empty } with dirty := false }

/-- The loop of `PruneList::Add`. -/
def addFrom : ℕ → Index → PruneList R → Option (PruneList R)
  | 0, _, _ => none
  | fuel + 1, currentIdx, l =>
    let siblingPos := wirePos currentIdx.getSibling
    if R.contains l.prunedRoots siblingPos || R.contains l.prunedCache siblingPos then
      addFrom fuel currentIdx.getParent
        { l with
          prunedCache := R.add l.prunedCache (wirePos currentIdx)
          prunedRoots := R.remove l.prunedRoots siblingPos }
    else
      some
        { l with
          prunedCache := R.add l.prunedCache (wirePos currentIdx)
          prunedRoots := R.add l.prunedRoots (wirePos currentIdx) }

/-- `PruneList::Add`. The passes are at most the heights that a position of 64 bits has. -/
def add (position : Index) (l : PruneList R) : Option (PruneList R) :=
  addFrom 64 position { l with dirty := true }

/-- `PruneList::AppendRootToShiftCaches`. -/
def appendRootToShiftCaches (mmrIndex : Index) (l : PruneList R) : PruneList R :=
  { l with
    shiftCache := l.shiftCache ++ [l.shiftCache.getLastD 0 + shiftOf mmrIndex]
    leafShiftCache := l.leafShiftCache ++ [l.leafShiftCache.getLastD 0 + leafShiftOf mmrIndex] }

/-- `PruneList::AddPrunedRoot`. -/
def addPrunedRoot (mmrIndex : Index) (l : PruneList R) : PruneList R :=
  if R.contains l.prunedRoots (wirePos mmrIndex) then l
  else
    let appendOnly := R.isEmpty l.prunedRoots ||
      decide ((R.maximum l.prunedRoots).toNat < mmrIndex.position + 1)
    let l := { l with dirty := true, prunedRoots := R.add l.prunedRoots (wirePos mmrIndex) }
    if appendOnly then
      appendRootToShiftCaches mmrIndex
        { l with prunedCache := addRootToPrunedCache mmrIndex l.prunedCache }
    else l.rebuildCaches

/-- `PruneList::IsPruned`. -/
def isPruned (l : PruneList R) (mmrIndex : Index) : Bool :=
  R.contains l.prunedCache (wirePos mmrIndex)

/-- `PruneList::IsPrunedRoot`. -/
def isPrunedRoot (l : PruneList R) (mmrIndex : Index) : Bool :=
  R.contains l.prunedRoots (wirePos mmrIndex)

/-- `PruneList::IsCompacted`. -/
def isCompacted (l : PruneList R) (mmrIndex : Index) : Bool :=
  l.isPruned mmrIndex && !l.isPrunedRoot mmrIndex

/-- `PruneList::GetShift`. -/
def getShift (l : PruneList R) (mmrIndex : Index) : ℕ :=
  if R.isEmpty l.prunedRoots then 0
  else if l.shiftCache.isEmpty then 0
  else
    let index := R.rank l.prunedRoots (wirePos mmrIndex)
    if index = 0 then 0
    else if l.shiftCache.length < index then l.shiftCache.getLastD 0
    else l.shiftCache.getD (index - 1) 0

/-- `PruneList::GetTotalShift`. -/
def getTotalShift (l : PruneList R) : ℕ :=
  l.getShift (Index.ofPosition (R.maximum l.prunedRoots).toNat)

/-- `PruneList::GetLeafShift`. -/
def getLeafShift (l : PruneList R) (mmrIdx : Index) : ℕ :=
  if R.isEmpty l.prunedRoots then 0
  else
    let index := R.rank l.prunedRoots (wirePos mmrIdx)
    if index = 0 then 0
    else if l.leafShiftCache.isEmpty then 0
    else if l.leafShiftCache.length < index then l.leafShiftCache.getLastD 0
    else l.leafShiftCache.getD (index - 1) 0

end PruneList

/-! ### One-based positions -/

theorem getSibling_node (h j : ℕ) :
    (Index.node h j).getSibling = Index.node h (sibling j) := by
  rcases Nat.even_or_odd' j with ⟨i, rfl | rfl⟩
  · rw [Index.getSibling_left, sibling, if_pos (by omega)]
  · rw [Index.getSibling_right, sibling, if_neg (by omega), Nat.add_sub_cancel]

theorem toNat_wirePos {i : Index} (h : i.position + 1 < 2 ^ 32) :
    (wirePos i).toNat = i.position + 1 :=
  UInt32.toNat_ofNat_of_lt' h

/-- Two positions that fit have different numbers. -/
theorem wirePos_inj {i i' : Index} (h : i.position + 1 < 2 ^ 32) (h' : i'.position + 1 < 2 ^ 32) :
    wirePos i = wirePos i' ↔ i.position = i'.position := by
  rw [← UInt32.toNat_inj, toNat_wirePos h, toNat_wirePos h', Nat.add_right_cancel_iff]

/-- The range over `2 ^ 31` leaves fits. -/
theorem node_fits {h j : ℕ} (hle : 2 ^ h * (j + 1) ≤ 2 ^ 31) :
    (Index.node h j).position + 1 < 2 ^ 32 := by
  have hlt := nodePos_lt_leafPos_iff.2 hle
  rw [leafPos_two_pow] at hlt
  change nodePos h j + 1 < 2 ^ 32
  omega

/-- The nodes of that range are told apart. -/
theorem wirePos_node_inj {h j h' j' : ℕ} (hle : 2 ^ h * (j + 1) ≤ 2 ^ 31)
    (hle' : 2 ^ h' * (j' + 1) ≤ 2 ^ 31)
    (heq : wirePos (Index.node h j) = wirePos (Index.node h' j')) : h = h' ∧ j = j' :=
  nodePos_inj ((wirePos_inj (node_fits hle) (node_fits hle')).1 heq)

namespace PruneList

variable {R : Roaring} {S : Set ℕ} {n i : ℕ} {l l' : PruneList R}

/-! ### Adding a leaf -/

/-- The leaves fit into the bitmaps, and are not all of those that do. -/
structure Fits (S : Set ℕ) : Prop where
  lt : ∀ m ∈ S, m < 2 ^ 31
  exists_not_mem : ∃ m < 2 ^ 31, m ∉ S

theorem Fits.full (hS : Fits S) {h j : ℕ} (hfull : Full S h j) : 2 ^ h * (j + 1) ≤ 2 ^ 31 :=
  hfull.le_of_bound hS.lt

theorem Fits.of_insert (hS : Fits (insert n S)) : Fits S := by
  obtain ⟨m, hm, hnot⟩ := hS.exists_not_mem
  exact ⟨fun m hm => hS.lt m (.inr hm), m, hm, fun h => hnot (.inr h)⟩

/-- A climb ends below the root over all leaves that fit. -/
theorem Fits.height_lt (hS : Fits (insert n S))
    (hbelow : ∀ k < i, Full S k (sibling (n / 2 ^ k))) : i < 31 := by
  by_contra hge
  have hn : n < 2 ^ 31 := hS.lt n (.inl rfl)
  have hall : Full (insert n S) 31 (n / 2 ^ 31) :=
    full_insert_iff.2 (.inr fun k hk => hbelow k (by omega))
  obtain ⟨m, hm, hnot⟩ := hS.exists_not_mem
  exact hnot (hall m (by rw [Nat.div_eq_of_lt hm, Nat.div_eq_of_lt hn]))

/-- So the siblings on the way fit as well. -/
theorem sibling_fits (hn : n < 2 ^ 31) (hi : i < 31) :
    2 ^ i * (sibling (n / 2 ^ i) + 1) ≤ 2 ^ 31 := by
  have hsplit : 2 ^ 31 = 2 ^ i * (2 * 2 ^ (30 - i)) := by
    rw [← pow_succ', ← pow_add]
    congr 1
    omega
  have hlt : n / 2 ^ i < 2 * 2 ^ (30 - i) := by
    rw [Nat.div_lt_iff_lt_mul (Nat.two_pow_pos i), Nat.mul_comm, ← hsplit]
    exact hn
  rw [hsplit]
  refine Nat.mul_le_mul_left _ ?_
  -- an even block below an even bound is followed by one
  generalize n / 2 ^ i = j at hlt ⊢
  rw [sibling]
  split <;> omega

/-- **What the two bitmaps hold** after leaves were added: the complete nodes, and the maximal
ones of them. -/
structure Represents (S : Set ℕ) (l : PruneList R) : Prop where
  /-- `m_prunedRoots`. -/
  roots : ∀ x, R.contains l.prunedRoots x = true ↔
    ∃ h j, MaxFull S h j ∧ x = wirePos (Index.node h j)
  /-- `m_prunedCache`. -/
  cache : ∀ x, R.contains l.prunedCache x = true ↔
    ∃ h j, Full S h j ∧ x = wirePos (Index.node h j)

/-- In the middle of the climb from leaf `n`, at height `i`. -/
structure Climbing (S : Set ℕ) (n i : ℕ) (l : PruneList R) : Prop where
  below : ∀ k < i, Full S k (sibling (n / 2 ^ k))
  roots : ∀ x, R.contains l.prunedRoots x = true ↔ ∃ h j,
    (MaxFull S h j ∧ ¬(h < i ∧ j = sibling (n / 2 ^ h))) ∧ x = wirePos (Index.node h j)
  cache : ∀ x, R.contains l.prunedCache x = true ↔
    ∃ h j, (Full S h j ∨ h < i ∧ j = n / 2 ^ h) ∧ x = wirePos (Index.node h j)

theorem Represents.climbing (h : Represents S l) : Climbing S n 0 { l with dirty := true } where
  below k hk := absurd hk (Nat.not_lt_zero k)
  roots x := by
    rw [h.roots]
    simp
  cache x := by
    rw [h.cache]
    simp

variable (hS : Fits (insert n S))
include hS

/-- **The look at the sibling** asks whether the sibling is full. -/
theorem Climbing.contains_sibling (h : Climbing S n i l) :
    (R.contains l.prunedRoots (wirePos (Index.node i (sibling (n / 2 ^ i)))) ||
      R.contains l.prunedCache (wirePos (Index.node i (sibling (n / 2 ^ i))))) = true ↔
    Full S i (sibling (n / 2 ^ i)) := by
  have hn : n < 2 ^ 31 := hS.lt n (.inl rfl)
  have hfits := sibling_fits hn (hS.height_lt h.below)
  rw [Bool.or_eq_true, h.roots, h.cache]
  constructor
  · rintro (⟨k, j, ⟨⟨hfull, -⟩, -⟩, heq⟩ | ⟨k, j, hfull | ⟨hk, rfl⟩, heq⟩)
    · obtain ⟨rfl, rfl⟩ := wirePos_node_inj hfits (hS.of_insert.full hfull) heq
      exact hfull
    · obtain ⟨rfl, rfl⟩ := wirePos_node_inj hfits (hS.of_insert.full hfull) heq
      exact hfull
    · -- the nodes passed are lower
      have hpassed : Full (insert n S) k (n / 2 ^ k) :=
        full_insert_iff.2 (.inr fun a ha => h.below a (ha.trans hk))
      obtain ⟨rfl, -⟩ := wirePos_node_inj hfits (hS.full hpassed) heq
      exact absurd hk (Nat.lt_irrefl i)
  · exact fun hfull => .inr ⟨i, _, .inl hfull, rfl⟩

/-- One pass up. -/
theorem Climbing.climb (h : Climbing S n i l) (hfull : Full S i (sibling (n / 2 ^ i))) :
    Climbing S n (i + 1)
      { l with
        prunedCache := R.add l.prunedCache (wirePos (Index.node i (n / 2 ^ i)))
        prunedRoots := R.remove l.prunedRoots
          (wirePos (Index.node i (sibling (n / 2 ^ i)))) } where
  below := Nat.forall_lt_succ_right.2 ⟨h.below, hfull⟩
  roots x := by
    rw [R.contains_remove, h.roots]
    constructor
    · rintro ⟨hne, k, j, ⟨htop, hkept⟩, rfl⟩
      refine ⟨k, j, ⟨htop, ?_⟩, rfl⟩
      rintro ⟨hk, rfl⟩
      rcases Nat.lt_succ_iff_lt_or_eq.1 hk with hlt | rfl
      · exact hkept ⟨hlt, rfl⟩
      · exact hne rfl
    · rintro ⟨k, j, ⟨htop, hkept⟩, rfl⟩
      refine ⟨fun heq => ?_, k, j, ⟨htop, fun hk => hkept ⟨by omega, hk.2⟩⟩, rfl⟩
      obtain ⟨rfl, rfl⟩ :=
        wirePos_node_inj (hS.of_insert.full htop.1) (hS.of_insert.full hfull) heq
      exact hkept ⟨Nat.lt_succ_self k, rfl⟩
  cache x := by
    rw [R.contains_add, h.cache]
    constructor
    · rintro (rfl | ⟨k, j, hfull | ⟨hk, rfl⟩, rfl⟩)
      · exact ⟨i, _, .inr ⟨Nat.lt_succ_self i, rfl⟩, rfl⟩
      · exact ⟨k, j, .inl hfull, rfl⟩
      · exact ⟨k, _, .inr ⟨Nat.lt_succ_of_lt hk, rfl⟩, rfl⟩
    · rintro ⟨k, j, hfull | ⟨hk, rfl⟩, rfl⟩
      · exact .inr ⟨k, j, .inl hfull, rfl⟩
      · rcases Nat.lt_succ_iff_lt_or_eq.1 hk with hlt | rfl
        · exact .inr ⟨k, _, .inr ⟨hlt, rfl⟩, rfl⟩
        · exact .inl rfl

omit hS in
/-- The last pass. -/
theorem Climbing.stop (h : Climbing S n i l) (hends : ¬Full S i (sibling (n / 2 ^ i))) :
    Represents (insert n S)
      { l with
        prunedCache := R.add l.prunedCache (wirePos (Index.node i (n / 2 ^ i)))
        prunedRoots := R.add l.prunedRoots (wirePos (Index.node i (n / 2 ^ i))) } := by
  have hclimb : Climb S n i := ⟨h.below, hends⟩
  constructor
  · intro x
    rw [R.contains_add, h.roots]
    constructor
    · rintro (rfl | ⟨k, j, htop, rfl⟩)
      · exact ⟨i, _, hclimb.maxFull_iff.2 (.inl ⟨rfl, rfl⟩), rfl⟩
      · exact ⟨k, j, hclimb.maxFull_iff.2 (.inr htop), rfl⟩
    · rintro ⟨k, j, htop, rfl⟩
      rcases hclimb.maxFull_iff.1 htop with ⟨rfl, rfl⟩ | htop
      · exact .inl rfl
      · exact .inr ⟨k, j, htop, rfl⟩
  · intro x
    rw [R.contains_add, h.cache]
    constructor
    · rintro (rfl | ⟨k, j, hfull | ⟨hk, rfl⟩, rfl⟩)
      · exact ⟨i, _, hclimb.full_iff.2 (.inr ⟨le_rfl, rfl⟩), rfl⟩
      · exact ⟨k, j, hclimb.full_iff.2 (.inl hfull), rfl⟩
      · exact ⟨k, _, hclimb.full_iff.2 (.inr ⟨hk.le, rfl⟩), rfl⟩
    · rintro ⟨k, j, hfull, rfl⟩
      rcases hclimb.full_iff.1 hfull with hold | ⟨hle, rfl⟩
      · exact .inr ⟨k, j, .inl hold, rfl⟩
      · rcases hle.lt_or_eq with hlt | rfl
        · exact .inr ⟨k, _, .inr ⟨hlt, rfl⟩, rfl⟩
        · exact .inl rfl

/-- The climb ends, after 31 passes at the latest. -/
theorem Climbing.addFrom {fuel : ℕ} (h : Climbing S n i l) (hfuel : 31 ≤ i + fuel) :
    ∃ l', addFrom fuel (Index.node i (n / 2 ^ i)) l = some l' ∧ Represents (insert n S) l' := by
  have hi := hS.height_lt h.below
  induction fuel generalizing i l with
  | zero => omega
  | succ fuel ih =>
    rw [PruneList.addFrom, getSibling_node]
    split_ifs with hsibling
    · have hfull := (h.contains_sibling hS).1 hsibling
      have hnext := h.climb hS hfull
      rw [Index.getParent_node, ← div_two_pow_succ]
      exact ih hnext (by omega) (hS.height_lt hnext.below)
    · exact ⟨_, rfl, h.stop fun hfull => hsibling ((h.contains_sibling hS).2 hfull)⟩

/-- **Adding a leaf** adds it to the set that the bitmaps stand for. -/
theorem Represents.add (h : Represents S l) :
    ∃ l', l.add (Index.ofPosition (leafPosition n)) = some l' ∧ Represents (insert n S) l' := by
  have hleaf : Index.ofPosition (leafPosition n) = Index.node 0 (n / 2 ^ 0) := by
    rw [← Index.ofPosition_nodePos, nodePos_zero, pow_zero, Nat.div_one, leafPosition]
  rw [PruneList.add, hleaf]
  exact h.climbing.addFrom hS (by omega)

omit hS

/-! ### Rebuilding the cache -/

theorem contains_foldl_add {α : Type} (f : α → UInt32) (xs : List α) (b : R.Bitmap) (x : UInt32) :
    R.contains (xs.foldl (fun b a => R.add b (f a)) b) x = true ↔
      R.contains b x = true ∨ ∃ a ∈ xs, x = f a := by
  induction xs generalizing b with
  | nil => simp
  | cons a xs ih =>
    rw [List.foldl_cons, ih, R.contains_add]
    simp only [List.mem_cons, exists_eq_or_imp]
    rw [or_assoc, or_left_comm]

/-- A root adds the positions under it. -/
theorem contains_addRootToPrunedCache (r : ℕ) (b : R.Bitmap) (x : UInt32) :
    R.contains (addRootToPrunedCache (Index.ofPosition r) b) x = true ↔
      R.contains b x = true ∨ ∃ p, Below p r ∧ x = wirePos (Index.ofPosition p) := by
  have hroom := two_pow_height_le r
  have hpos : 0 < 2 ^ PostOrder.height r := Nat.two_pow_pos _
  have hdouble : 2 ^ (PostOrder.height r + 1) = 2 * 2 ^ PostOrder.height r := pow_succ' 2 _
  rw [addRootToPrunedCache, contains_foldl_add]
  refine or_congr_right (exists_congr fun p => and_congr_left fun _ => ?_)
  rw [List.mem_range'_1, below_iff_under, Under]
  change r + 1 - (2 ^ (PostOrder.height r + 1) - 1) ≤ p ∧ p < r + 1 -
    (2 ^ (PostOrder.height r + 1) - 1) + (r + 1 - (r + 1 - (2 ^ (PostOrder.height r + 1) - 1))) ↔ _
  omega

theorem contains_foldl_addRoot (roots : List UInt32) (b : R.Bitmap) (x : UInt32) :
    R.contains (roots.foldl (fun cache y => addRootToPrunedCache (rootIndex y) cache) b) x = true ↔
      R.contains b x = true ∨
        ∃ y ∈ roots, ∃ p, Below p (y.toNat - 1) ∧ x = wirePos (Index.ofPosition p) := by
  induction roots generalizing b with
  | nil => simp
  | cons y roots ih =>
    rw [List.foldl_cons, ih, rootIndex, contains_addRootToPrunedCache]
    simp only [List.mem_cons, exists_eq_or_imp]
    rw [or_assoc]

/-- **The rebuilt cache** holds the positions under the roots. -/
theorem contains_buildPrunedCache (l : PruneList R) (x : UInt32) :
    R.contains l.buildPrunedCache.prunedCache x = true ↔
      ∃ y, R.contains l.prunedRoots y = true ∧
        ∃ p, Below p (y.toNat - 1) ∧ x = wirePos (Index.ofPosition p) := by
  rw [buildPrunedCache]
  split_ifs with hempty
  · rw [R.isEmpty_iff] at hempty
    simp [R.contains_iff, hempty]
  · rw [R.contains_runOptimize, contains_foldl_addRoot]
    simp [R.contains_iff]

@[simp] theorem buildPrunedCache_prunedRoots (l : PruneList R) :
    l.buildPrunedCache.prunedRoots = l.prunedRoots := by
  rw [buildPrunedCache]
  split <;> rfl

@[simp] theorem buildShiftCaches_prunedRoots (l : PruneList R) :
    l.buildShiftCaches.prunedRoots = l.prunedRoots := by
  rw [buildShiftCaches]
  split <;> rfl

@[simp] theorem buildShiftCaches_prunedCache (l : PruneList R) :
    l.buildShiftCaches.prunedCache = l.prunedCache := by
  rw [buildShiftCaches]
  split <;> rfl

@[simp] theorem rebuildCaches_prunedRoots (l : PruneList R) :
    l.rebuildCaches.prunedRoots = l.prunedRoots := by
  rw [rebuildCaches, buildShiftCaches_prunedRoots, buildPrunedCache_prunedRoots]

@[simp] theorem rebuildCaches_prunedCache (l : PruneList R) :
    l.rebuildCaches.prunedCache = l.buildPrunedCache.prunedCache := by
  rw [rebuildCaches, buildShiftCaches_prunedCache]

/-- A flush of a list that was changed rebuilds the caches. -/
theorem flush_of_dirty (h : l.dirty = true) :
    l.flush = { rebuildCaches { l with
      file := some (R.write (R.runOptimize l.prunedRoots))
      prunedRoots := R.runOptimize l.prunedRoots } with dirty := false } := by
  rw [flush, if_pos h, if_pos (R.getSizeInBytes_pos _)]

theorem flush_of_not_dirty (h : l.dirty = false) : l.flush = l := by
  rw [flush, h, if_neg Bool.false_ne_true]

/-- **The roots make the cache.** -/
theorem Represents.of_roots (hS : Fits S)
    (hroots : ∀ x, R.contains l.prunedRoots x = true ↔
      ∃ h j, MaxFull S h j ∧ x = wirePos (Index.node h j))
    (hcache : ∀ x, R.contains l.prunedCache x = true ↔
      R.contains l.buildPrunedCache.prunedCache x = true) : Represents S l := by
  refine ⟨hroots, fun x => ?_⟩
  have htoNat : ∀ {h j : ℕ}, Full S h j →
      (wirePos (Index.node h j)).toNat - 1 = nodePos h j := fun hfull => by
    rw [toNat_wirePos (node_fits (hS.full hfull))]
    rfl
  rw [hcache, contains_buildPrunedCache]
  constructor
  · rintro ⟨y, hy, p, hbelow, rfl⟩
    obtain ⟨h, j, htop, rfl⟩ := (hroots y).1 hy
    obtain ⟨k, hk⟩ := exists_nodePos p
    rw [htoNat htop.1, hk] at hbelow
    obtain ⟨hle, hdiv⟩ := below_nodePos.1 hbelow
    refine ⟨_, k, htop.1.below hle hdiv, ?_⟩
    rw [← Index.ofPosition_nodePos, ← hk]
  · rintro ⟨h, j, hfull, rfl⟩
    obtain ⟨k, hle, htop⟩ := hfull.exists_maxFull hS.lt
    refine ⟨_, (hroots _).2 ⟨k, _, htop, rfl⟩, nodePos h j, ?_, by rw [Index.ofPosition_nodePos]⟩
    rw [htoNat htop.1]
    exact below_nodePos.2 ⟨hle, rfl⟩

/-- **A flush** leaves the set that the bitmaps stand for. -/
theorem Represents.flush (hS : Fits S) (h : Represents S l) : Represents S l.flush := by
  cases hdirty : l.dirty with
  | false => rwa [flush_of_not_dirty hdirty]
  | true =>
    rw [flush_of_dirty hdirty]
    refine .of_roots hS (fun x => ?_) fun x => ?_
    · change R.contains (rebuildCaches _).prunedRoots x = true ↔ _
      rw [rebuildCaches_prunedRoots, R.contains_runOptimize, h.roots]
    · change R.contains (rebuildCaches _).prunedCache x = true ↔ _
      rw [rebuildCaches_prunedCache, contains_buildPrunedCache, contains_buildPrunedCache]
      change (∃ y, R.contains (R.runOptimize l.prunedRoots) y = true ∧ _) ↔
        ∃ y, R.contains (rebuildCaches _).prunedRoots y = true ∧ _
      rw [rebuildCaches_prunedRoots]

/-! ### Runs -/

/-- What is done to a list while a range is compacted. -/
inductive Op
  | add (leafIndex : ℕ)
  | flush

/-- One operation after the other. -/
def run (l : PruneList R) : List Op → Option (PruneList R)
  | [] => some l
  | .add leafIndex :: ops => do
    let l ← l.add (Index.ofPosition (leafPosition leafIndex))
    run l ops
  | .flush :: ops => run l.flush ops

/-- The leaves that were added. -/
def added : List Op → Set ℕ
  | [] => ∅
  | .add leafIndex :: ops => insert leafIndex (added ops)
  | .flush :: ops => added ops

/-- **A run adds its leaves.** -/
theorem Represents.run {ops : List Op} (hS : Fits (S ∪ added ops)) (h : Represents S l) :
    ∃ l', l.run ops = some l' ∧ Represents (S ∪ added ops) l' := by
  induction ops generalizing S l with
  | nil => exact ⟨l, rfl, by rwa [added, Set.union_empty]⟩
  | cons op ops ih =>
    cases op with
    | add leafIndex =>
      have hset : S ∪ added (.add leafIndex :: ops) = insert leafIndex S ∪ added ops := by
        rw [added, Set.union_insert, Set.insert_union]
      rw [hset] at hS ⊢
      have hS' : Fits (insert leafIndex S) := by
        obtain ⟨m, hm, hnot⟩ := hS.exists_not_mem
        exact ⟨fun m hm => hS.lt m (.inl hm), m, hm, fun h => hnot (.inl h)⟩
      obtain ⟨l₁, hl₁, h₁⟩ := h.add hS'
      obtain ⟨l', hl', h'⟩ := ih hS h₁
      exact ⟨l', by rw [PruneList.run, hl₁]; exact hl', h'⟩
    | flush =>
      have hS' : Fits S := by
        obtain ⟨m, hm, hnot⟩ := hS.exists_not_mem
        exact ⟨fun m hm => hS.lt m (.inl hm), m, hm, fun h => hnot (.inl h)⟩
      exact ih hS (h.flush hS')

theorem represents_empty : Represents ∅ (ofRoots (R := R) none R.empty) := by
  have hnone : ∀ h j, ¬Full ∅ h j := fun h j hfull => by
    have hpos := hfull.le_of_bound (n := 0) fun m hm => absurd hm (Set.notMem_empty m)
    have : 0 < 2 ^ h * (j + 1) := Nat.mul_pos (Nat.two_pow_pos h) (Nat.succ_pos j)
    omega
  constructor <;> intro x <;> simp [ofRoots, MaxFull, hnone]

/-- **The queries** of a list of leaves. -/
theorem Represents.isPruned_iff (hS : Fits S) (h : Represents S l) {r : ℕ} (hr : r + 1 < 2 ^ 32) :
    l.isPruned (Index.ofPosition r) = true ↔ Complete S r := by
  obtain ⟨j, hj⟩ := exists_nodePos r
  rw [isPruned, h.cache]
  constructor
  · rintro ⟨k, m, hfull, heq⟩
    have hpos : r = nodePos k m := (wirePos_inj hr (node_fits (hS.full hfull))).1 heq
    rw [hpos]
    exact complete_nodePos_iff.2 hfull
  · intro hcomplete
    refine ⟨_, j, complete_nodePos_iff.1 (hj ▸ hcomplete), ?_⟩
    rw [← Index.ofPosition_nodePos, ← hj]

theorem Represents.mem_roots_iff (hS : Fits S) (h : Represents S l) (x : UInt32) :
    x ∈ R.elements l.prunedRoots ↔ ∃ r, MaximalComplete S r ∧ x.toNat = r + 1 := by
  rw [← R.contains_iff, h.roots]
  constructor
  · rintro ⟨k, m, htop, rfl⟩
    exact ⟨nodePos k m, maximalComplete_nodePos_iff.2 htop,
      toNat_wirePos (node_fits (hS.full htop.1))⟩
  · rintro ⟨r, hmax, hx⟩
    obtain ⟨j, hj⟩ := exists_nodePos r
    generalize PostOrder.height r = k at hj
    subst hj
    have htop := maximalComplete_nodePos_iff.1 hmax
    refine ⟨k, j, htop, ?_⟩
    rw [← UInt32.toNat_inj, toNat_wirePos (node_fits (hS.full htop.1)), hx]
    rfl

theorem Represents.isPrunedRoot_iff (hS : Fits S) (h : Represents S l) {r : ℕ}
    (hr : r + 1 < 2 ^ 32) :
    l.isPrunedRoot (Index.ofPosition r) = true ↔ MaximalComplete S r := by
  rw [isPrunedRoot, R.contains_iff, h.mem_roots_iff hS, toNat_wirePos hr]
  constructor
  · rintro ⟨r', hmax, heq⟩
    obtain rfl : r = r' := Nat.succ_injective heq
    exact hmax
  · exact fun hmax => ⟨r, hmax, rfl⟩

/-- What a list of leaves has to look like: the roots of the maximal complete subtrees, and the
nodes of these subtrees. -/
structure Computes (S : Set ℕ) (l : PruneList R) : Prop where
  /-- The pruned roots. -/
  roots : ∀ x, x ∈ R.elements l.prunedRoots ↔ ∃ r, MaximalComplete S r ∧ x.toNat = r + 1
  isPrunedRoot : ∀ r, r + 1 < 2 ^ 32 →
    (l.isPrunedRoot (Index.ofPosition r) = true ↔ MaximalComplete S r)
  isPruned : ∀ r, r + 1 < 2 ^ 32 →
    (l.isPruned (Index.ofPosition r) = true ↔ ∃ r', MaximalComplete S r' ∧ Below r r')
  isCompacted : ∀ r, r + 1 < 2 ^ 32 → (l.isCompacted (Index.ofPosition r) = true ↔
    ∃ r', MaximalComplete S r' ∧ Below r r' ∧ r ≠ r')

theorem Represents.computes (hS : Fits S) (h : Represents S l) : Computes S l where
  roots := h.mem_roots_iff hS
  isPrunedRoot r hr := h.isPrunedRoot_iff hS hr
  isPruned r hr := by rw [h.isPruned_iff hS hr, complete_iff_exists_maximal hS.lt]
  isCompacted r hr := by
    rw [PruneList.isCompacted, Bool.and_eq_true, Bool.not_eq_true', ← Bool.not_eq_true,
      h.isPrunedRoot_iff hS hr, h.isPruned_iff hS hr, complete_iff_exists_maximal hS.lt]
    constructor
    · rintro ⟨⟨r', hmax, hbelow⟩, hnot⟩
      exact ⟨r', hmax, hbelow, fun heq => hnot (heq ▸ hmax)⟩
    · rintro ⟨r', hmax, hbelow, hne⟩
      exact ⟨⟨r', hmax, hbelow⟩, fun hroot => hne (hroot.2 r' hmax.1 hbelow).symm⟩

/-- Two lists of the same leaves have the same bitmaps. -/
theorem Represents.elements_eq (h : Represents S l) (h' : Represents S l') :
    R.elements l.prunedRoots = R.elements l'.prunedRoots ∧
      R.elements l.prunedCache = R.elements l'.prunedCache :=
  ⟨Roaring.elements_eq_of_contains fun x => (h.roots x).trans (h'.roots x).symm,
    Roaring.elements_eq_of_contains fun x => (h.cache x).trans (h'.cache x).symm⟩

/-- **Adding leaves computes the maximal pruned subtrees**, whatever the order, the repetitions
and the flushes in between: as long as the leaves fit into the bitmaps, and are not all that
do. -/
theorem add_computes (R : Roaring) (ops : List Op) (hlt : ∀ n ∈ added ops, n < 2 ^ 31)
    (hsome : ∃ n < 2 ^ 31, n ∉ added ops) :
    ∃ l, (ofRoots (R := R) none R.empty).run ops = some l ∧ Computes (added ops) l ∧
      ∀ ops', added ops' = added ops → ∃ l', (ofRoots (R := R) none R.empty).run ops' = some l' ∧
        R.elements l'.prunedRoots = R.elements l.prunedRoots ∧
        R.elements l'.prunedCache = R.elements l.prunedCache := by
  have hS : Fits (added ops) := ⟨hlt, hsome⟩
  have hrun : ∀ ops', added ops' = added ops →
      ∃ l', (ofRoots (R := R) none R.empty).run ops' = some l' ∧ Represents (added ops) l' := by
    intro ops' heq
    have hfits : Fits (∅ ∪ added ops') := by rwa [Set.empty_union, heq]
    obtain ⟨l', hl', h'⟩ := represents_empty.run hfits
    rw [Set.empty_union, heq] at h'
    exact ⟨l', hl', h'⟩
  obtain ⟨l, hl, h⟩ := hrun ops rfl
  refine ⟨l, hl, h.computes hS, fun ops' heq => ?_⟩
  obtain ⟨l', hl', h'⟩ := hrun ops' heq
  exact ⟨l', hl', h'.elements_eq h⟩

theorem add_computes_four : ∃ l, (ofRoots (R := .ascending) none Roaring.ascending.empty).run
      [.add 3, .add 1, .flush, .add 4, .add 0, .add 1, .flush] = some l ∧
    Computes {3, 1, 4, 0} l := by
  have hadded : added [.add 3, .add 1, .flush, .add 4, .add 0, .add 1, .flush] =
      ({3, 1, 4, 0} : Set ℕ) := by
    ext n
    simp only [added, Set.mem_insert_iff, Set.mem_empty_iff_false, Set.mem_singleton_iff]
    tauto
  obtain ⟨l, hl, hcomputes, -⟩ := add_computes .ascending
    [.add 3, .add 1, .flush, .add 4, .add 0, .add 1, .flush]
    (by simp [added]) ⟨2, by omega, by simp [added]⟩
  rw [hadded] at hcomputes
  exact ⟨l, hl, hcomputes⟩

/-- Position `2 ^ 32` looks like position `0`. -/
theorem not_isPruned_iff : ¬∀ ops, ∃ l,
    (ofRoots (R := .ascending) none Roaring.ascending.empty).run ops = some l ∧
      ∀ r < 2 ^ 64 - 1, l.isPruned (Index.ofPosition r) = true ↔
        ∃ r', MaximalComplete (added ops) r' ∧ Below r r' := by
  intro hall
  obtain ⟨l, hl, hpruned⟩ := hall [.add 0]
  have hbound : ∀ m ∈ added [.add 0], m < 1 := by simp [added]
  have hcomplete : ∀ r, Complete (added [.add 0]) r ↔ r = 0 := by
    intro r
    obtain ⟨j, hj⟩ := exists_nodePos r
    generalize PostOrder.height r = k at hj
    subst hj
    rw [complete_nodePos_iff]
    constructor
    · intro hfull
      have hle := hfull.le_of_bound hbound
      have hlt := nodePos_lt_leafPos_iff.2 hle
      have hone : leafPos 1 = 1 := rfl
      omega
    · intro heq
      have heq' : nodePos k j = nodePos 0 0 := heq.trans (nodePos_zero 0).symm
      obtain ⟨rfl, rfl⟩ := nodePos_inj heq'
      simp [added]
  have hsame : wirePos (Index.ofPosition (2 ^ 32)) = wirePos (Index.ofPosition 0) := by
    decide
  have hpruned' := hpruned (2 ^ 32) (by decide)
  rw [isPruned, hsame, ← isPruned, hpruned 0 (by decide), ← complete_iff_exists_maximal hbound,
    ← complete_iff_exists_maximal hbound, hcomplete, hcomplete] at hpruned'
  exact absurd (hpruned'.1 rfl) (by decide)

end PruneList

end GrinPlusPlus.Cached
