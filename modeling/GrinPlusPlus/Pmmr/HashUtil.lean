import GrinPlusPlus.Lib.Mountain
import GrinPlusPlus.Pmmr.Index
import Mathlib.Data.List.Forall2
import Mathlib.Data.List.Induction

/-!
# The hash files of the mountain ranges

`MMRHashUtil` and `PruneList`: how a leaf is added to a file of hashes, and how the root at
a size is read off it. A pruned range leaves out the nodes below its pruned roots, so every
position is shifted by what is missing in front of it; a range that was never pruned has no
shift (`GrinPlusPlus.PruneList.empty`), and a header or kernel range has no prune list at
all.

The file of a range that was only appended to is the range of its leaves in the sense of
`Mountain.IsRange`:

* `GrinPlusPlus.MMRHashUtil.addHashes_ok` – adding a leaf gives the range of one leaf more;
* `GrinPlusPlus.MMRHashUtil.root_take` – the root at a size only depends on the leaves below
  that size;
* `GrinPlusPlus.MMRHashUtil.eq_of_root_eq` – under an injective hash, the root **at the size
  of the range** determines the leaves. At any other size it says nothing about the rest.
-/

namespace GrinPlusPlus

open PostOrder Mountain

/-! ### Prune lists -/

/-- `PruneList`: the roots of the subtrees that were pruned, in ascending order. -/
structure PruneList where
  /-- The positions of the roots. -/
  prunedRoots : List ℕ
  /-- They ascend. -/
  sorted : prunedRoots.Pairwise (· < ·)
deriving DecidableEq

namespace PruneList

/-- The list of a range that was never pruned. -/
def empty : PruneList := ⟨[], List.Pairwise.nil⟩

/-- `PruneList::IsPruned`: the position is under a pruned root. -/
def isPruned (l : PruneList) (position : ℕ) : Bool :=
  l.prunedRoots.any fun root =>
    decide (root + 2 ≤ position + 2 ^ (Index.calculateHeight root + 1) ∧ position ≤ root)

/-- `PruneList::IsPrunedRoot`. -/
def isPrunedRoot (l : PruneList) (position : ℕ) : Bool :=
  l.prunedRoots.contains position

/-- `PruneList::IsCompacted`. -/
def isCompacted (l : PruneList) (position : ℕ) : Bool :=
  l.isPruned position && !l.isPrunedRoot position

/-- `PruneList::GetShift`: the nodes that are missing up to a position. -/
def getShift (l : PruneList) (position : ℕ) : ℕ :=
  ((l.prunedRoots.filter (· ≤ position)).map fun root =>
    2 * (2 ^ Index.calculateHeight root - 1)).sum

/-- `PruneList::GetLeafShift`: the leaves that are missing up to a position. -/
def getLeafShift (l : PruneList) (position : ℕ) : ℕ :=
  ((l.prunedRoots.filter (· ≤ position)).map fun root =>
    if Index.calculateHeight root = 0 then 0 else 2 ^ Index.calculateHeight root).sum

/-- `PruneList::GetTotalShift`. -/
def getTotalShift (l : PruneList) : ℕ :=
  (l.prunedRoots.map fun root => 2 * (2 ^ Index.calculateHeight root - 1)).sum

/-- **A position is pruned** under a root. -/
theorem isPruned_iff_under {l : PruneList} {p : ℕ} :
    l.isPruned p = true ↔ ∃ r ∈ l.prunedRoots, Under p r := by
  rw [isPruned, List.any_eq_true]
  exact exists_congr fun r => and_congr_right fun _ => decide_eq_true_iff

@[simp] theorem empty_isCompacted (position : ℕ) : empty.isCompacted position = false := rfl

@[simp] theorem empty_getShift (position : ℕ) : empty.getShift position = 0 := rfl

@[simp] theorem empty_getLeafShift (position : ℕ) : empty.getLeafShift position = 0 := rfl

@[simp] theorem empty_getTotalShift : empty.getTotalShift = 0 := rfl

end PruneList

namespace MMRHashUtil

variable (G : Global)

/-- `MMRHashUtil::HashLeafWithIndex`. -/
def hashLeafWithIndex (serializedLeaf : List UInt8) (mmrIndex : ℕ) : Hash :=
  G.blake2b (.leafWithIndex mmrIndex serializedLeaf)

/-- `MMRHashUtil::HashParentWithIndex`. -/
def hashParentWithIndex (left right : Hash) (parentIndex : ℕ) : Hash :=
  G.blake2b (.parentWithIndex parentIndex left right)

/-- The two in the shape of `Mountain`. -/
def nodeHash (position : ℕ) : Payload (List UInt8) Hash → Hash
  | .inl leaf => hashLeafWithIndex G leaf position
  | .inr (left, right) => hashParentWithIndex G left right position

/-- `DataFile::GetDataAt` of a file of hashes. -/
def getDataAt {α : Type} (file : List α) (position : ℕ) : Except Exc α :=
  orThrow file[position]? (.file "Failed to read data at position")

/-- `MMRHashUtil::GetHashAt`. -/
def getHashAt (file : List Hash) (position : ℕ) : Option PruneList → Except Exc Hash
  | some l =>
    if l.isCompacted position then .error (.runtime "Hash is compacted")
    else getDataAt file (position - l.getShift position)
  | none => getDataAt file position

/-- `MMRHashUtil::GetShiftedIndex`. -/
def getShiftedIndex (position : ℕ) : Option PruneList → ℕ
  | some l => position - l.getShift position
  | none => position

/-- The parents that the last leaf closed. The positions behind a leaf have heights
`1, 2, …` up to the next leaf, so the number of passes is bounded by the position. -/
def addParents (pruneList : Option PruneList) : ℕ → List Hash → ℕ → Except Exc (List Hash)
  | 0, file, _ => .ok file
  | fuel + 1, file, position =>
    let height := Index.calculateHeight position
    if height = 0 then .ok file
    else do
      let leftHash ← getHashAt file (Index.getLeftChild position height) pruneList
      let rightHash ← getHashAt file (Index.getRightChild position) pruneList
      addParents pruneList fuel (file ++ [hashParentWithIndex G leftHash rightHash position])
        (position + 1)

/-- `MMRHashUtil::AddHashes`. -/
def addHashes (file : List Hash) (serializedLeaf : List UInt8) (pruneList : Option PruneList) :
    Except Exc (List Hash) :=
  let position := file.length + (pruneList.map PruneList.getTotalShift).getD 0
  addParents G pruneList (position + 2) (file ++ [hashLeafWithIndex G serializedLeaf position])
    (position + 1)

/-- The hashes at the peaks. -/
def peakHashes (file : List Hash) (pruneList : Option PruneList) :
    List ℕ → Except Exc (List Hash)
  | [] => .ok []
  | peak :: peaks => do
    let hash ← getDataAt file (getShiftedIndex peak pruneList)
    let hashes ← peakHashes file pruneList peaks
    .ok (hash :: hashes)

/-- `MMRHashUtil::Root`: the peaks from the last to the first, skipping empty hashes. -/
def root (file : List Hash) (size : ℕ) (pruneList : Option PruneList) : Except Exc Hash :=
  if size = 0 then .ok Hash.zero
  else do
    let hashes ← peakHashes file pruneList (getPeakIndices size)
    .ok (bag (nodeHash G) Hash.zero size hashes)

variable {G}

/-! ### The range of a file that was only appended to -/

/-- The file is the range of the serialised leaves. -/
abbrev IsRangeOf (G : Global) (file : List Hash) (leaves : List (List UInt8)) : Prop :=
  IsRange (nodeHash G) file leaves

theorem nodeHash_injective (hG : G.InjectiveWithIndex) (p q : ℕ)
    (x y : Payload (List UInt8) Hash) (h : nodeHash G p x = nodeHash G q y) : p = q ∧ x = y := by
  rcases x with a | ⟨a, b⟩ <;> rcases y with c | ⟨c, d⟩
  · obtain ⟨h1, h2⟩ := hG.leaf _ _ _ _ h
    exact ⟨h1, congrArg _ h2⟩
  · exact absurd h (hG.leaf_ne_parent _ _ _ _ _)
  · exact absurd h.symm (hG.leaf_ne_parent _ _ _ _ _)
  · obtain ⟨h1, h2, h3⟩ := hG.parent _ _ _ _ _ _ h
    exact ⟨h1, by rw [h2, h3]⟩

/-- An empty prune list is as good as none. -/
theorem getHashAt_empty (file : List Hash) (position : ℕ) :
    getHashAt file position (some .empty) = getHashAt file position none := by
  simp [getHashAt]

theorem addParents_empty (fuel : ℕ) (file : List Hash) (position : ℕ) :
    addParents G (some .empty) fuel file position = addParents G none fuel file position := by
  induction fuel generalizing file position with
  | zero => rfl
  | succ fuel ih => simp only [addParents, getHashAt_empty, ih]

theorem addHashes_empty (file : List Hash) (leaf : List UInt8) :
    addHashes G file leaf (some .empty) = addHashes G file leaf none :=
  addParents_empty ..

theorem root_empty (file : List Hash) (size : ℕ) :
    root G file size (some .empty) = root G file size none := by
  have h : ∀ peaks, peakHashes file (some .empty) peaks = peakHashes file none peaks := by
    intro peaks
    induction peaks with
    | nil => rfl
    | cons peak peaks ih =>
      rw [peakHashes, peakHashes, ih]
      rfl
  rw [root, root, h]

/-- The parents are the ones that close the range. -/
theorem addParents_ok {file : List Hash} {leaves : List (List UInt8)} {n : ℕ}
    (hfile : Consistent (nodeHash G) file leaves) (hleaves : leaves.length = n + 1)
    (hlt : leafPos n < file.length) (hle : file.length ≤ leafPos (n + 1)) {fuel : ℕ}
    (hfuel : leafPos (n + 1) < file.length + fuel) :
    ∃ file', addParents G none fuel file file.length = .ok file' ∧
      IsRangeOf G file' leaves ∧ file <+: file' := by
  induction fuel generalizing file with
  | zero => omega
  | succ fuel ih =>
    rcases hle.eq_or_lt with heq | hlt'
    · refine ⟨file, ?_, ?_, List.prefix_rfl⟩
      · rw [addParents, Index.calculateHeight, heq, height_leafPos, if_pos rfl]
      · exact { toConsistent := hfile, length_eq := by rw [heq, hleaves] }
    · have hpos := height_pos_of_between hlt hlt'
      obtain ⟨k, hk⟩ : ∃ k, height file.length = k + 1 := ⟨height file.length - 1, by omega⟩
      obtain ⟨hge, -, -⟩ := height_children hk
      have h2 : 0 < 2 ^ k := Nat.two_pow_pos k
      have h3 := two_pow_add_two k
      have hl : file.length - 2 ^ (k + 1) < file.length := by omega
      have hr : file.length - 1 < file.length := by omega
      have hstep := hfile.push_parent hk (List.getElem?_eq_getElem hl)
        (List.getElem?_eq_getElem hr)
      obtain ⟨file', hrun, hrange, hpre⟩ := ih hstep (by simp; omega) (by simp; omega)
        (by simp; omega)
      refine ⟨file', ?_, hrange, (List.prefix_append _ _).trans hpre⟩
      rw [addParents, Index.calculateHeight, hk, if_neg (by omega), getHashAt, getHashAt,
        Index.getLeftChild, Index.getRightChild, getDataAt, getDataAt,
        List.getElem?_eq_getElem hl, List.getElem?_eq_getElem hr]
      rw [List.length_append, List.length_singleton] at hrun
      exact hrun

/-- **Adding a leaf**: a range of one leaf more, the old file in front of it. -/
theorem addHashes_ok {file : List Hash} {leaves : List (List UInt8)}
    (h : IsRangeOf G file leaves) (leaf : List UInt8) :
    ∃ file', addHashes G file leaf none = .ok file' ∧ IsRangeOf G file' (leaves ++ [leaf]) ∧
      file <+: file' := by
  have hstep := h.push_leaf h.length_eq leaf
  have hsucc := leafPos_lt_succ leaves.length
  have hbound : leafPos (leaves.length + 1) ≤ leafPos leaves.length + leaves.length + 1 := by
    have h1 := ones_le leaves.length
    have h2 : 0 < ones (leaves.length + 1) := ones_pos (Nat.succ_pos _)
    have h3 := ones_le (leaves.length + 1)
    rw [leafPos, leafPos]
    omega
  have hle := le_leafPos leaves.length
  have hlen := h.length_eq
  obtain ⟨file', hrun, hrange, hpre⟩ := addParents_ok hstep (n := leaves.length)
    (by simp) (by simp; omega) (by simp; omega)
    (by simp; omega : leafPos (leaves.length + 1) <
      (file ++ [nodeHash G file.length (.inl leaf)]).length + (file.length + 2))
  refine ⟨file', ?_, hrange, (List.prefix_append _ _).trans hpre⟩
  rw [List.length_append, List.length_singleton] at hrun
  exact hrun

/-- There is a file of hashes for any leaves. -/
theorem exists_isRangeOf (G : Global) (leaves : List (List UInt8)) :
    ∃ file, IsRangeOf G file leaves := by
  induction leaves using List.reverseRecOn with
  | nil => exact ⟨[], isRange_nil⟩
  | append_singleton leaves leaf ih =>
    obtain ⟨file, hfile⟩ := ih
    obtain ⟨file', -, hfile', -⟩ := addHashes_ok hfile leaf
    exact ⟨file', hfile'⟩

/-! ### Roots -/

/-- The hashes at the peaks are the entries of the file there, shifted by what is missing. -/
theorem peakHashes_eq_ok_shifted {file hashes : List Hash} {pruneList : Option PruneList}
    {peaks : List ℕ} :
    peakHashes file pruneList peaks = .ok hashes ↔
      List.Forall₂ (fun p h => file[getShiftedIndex p pruneList]? = some h) peaks hashes := by
  induction peaks generalizing hashes with
  | nil =>
    rw [peakHashes, List.forall₂_nil_left_iff]
    exact ⟨fun h => (Except.ok.inj h).symm, fun h => by rw [h]⟩
  | cons peak peaks ih =>
    rw [peakHashes, getDataAt]
    rcases hp : file[getShiftedIndex peak pruneList]? with _ | h
    · refine ⟨fun h => (by cases h), fun h => ?_⟩
      cases h with
      | cons h _ => rw [hp] at h; cases h
    · rcases hrest : peakHashes file pruneList peaks with e | hs
      · refine ⟨fun h => (by cases h), fun h => ?_⟩
        cases h with
        | cons _ h => rw [← ih, hrest] at h; cases h
      · have hs' := ih.mp hrest
        refine ⟨fun h => ?_, fun h => ?_⟩
        · cases h
          exact .cons hp hs'
        · cases h with
          | cons h1 h2 =>
            rw [hp, Option.some_inj] at h1
            have hrest' := ih.mpr h2
            rw [hrest] at hrest'
            cases hrest'
            rw [h1]
            rfl

/-- The hashes at the peaks are the entries of the file there. -/
theorem peakHashes_eq_ok {file hashes : List Hash} {peaks : List ℕ} :
    peakHashes file none peaks = .ok hashes ↔
      List.Forall₂ (fun p h => file[p]? = some h) peaks hashes :=
  peakHashes_eq_ok_shifted

/-- Files with the same hashes at the peaks agree there. -/
theorem agree_of_forall₂ {file file' hashes : List Hash} {peaks : List ℕ}
    (h : List.Forall₂ (fun p a => file[p]? = some a) peaks hashes)
    (h' : List.Forall₂ (fun p a => file'[p]? = some a) peaks hashes) :
    ∀ q ∈ peaks, file[q]? = file'[q]? := by
  induction h with
  | nil => simp
  | cons ha _ ih =>
    cases h' with
    | cons hb hbs => exact List.forall_mem_cons.mpr ⟨ha.trans hb.symm, ih hbs⟩

/-- The root at the size of some first leaves is the root of their own range. -/
theorem root_take {file : List Hash} (m : ℕ) :
    root G (file.take (leafPos m)) (leafPos m) none = root G file (leafPos m) none := by
  have hread : ∀ peaks : List ℕ, (∀ p ∈ peaks, p < leafPos m) →
      peakHashes (file.take (leafPos m)) none peaks = peakHashes file none peaks := by
    intro peaks hpeaks
    induction peaks with
    | nil => rfl
    | cons peak peaks ih =>
      have hlt := hpeaks peak (List.mem_cons_self ..)
      rw [peakHashes, peakHashes, ih fun p hp => hpeaks p (List.mem_cons_of_mem _ hp),
        getDataAt, getDataAt, getShiftedIndex, List.getElem?_take_of_lt hlt]
  rw [root, root, hread]
  intro p hp
  rw [getPeakIndices_leafPos] at hp
  have := (peaksFrom_bounds hp).2
  omega

/-- At the size of the range there is a root. -/
theorem root_ok {file : List Hash} {leaves : List (List UInt8)} (h : IsRangeOf G file leaves) :
    ∃ r, root G file (leafPos leaves.length) none = .ok r := by
  have hread : ∀ peaks : List ℕ, (∀ p ∈ peaks, p < file.length) →
      ∃ hashes, peakHashes file none peaks = .ok hashes := by
    intro peaks hpeaks
    induction peaks with
    | nil => exact ⟨[], rfl⟩
    | cons peak peaks ih =>
      obtain ⟨hashes, hh⟩ := ih fun p hp => hpeaks p (List.mem_cons_of_mem _ hp)
      have hlt := hpeaks peak (List.mem_cons_self ..)
      rw [peakHashes, hh, getDataAt, getShiftedIndex, List.getElem?_eq_getElem hlt]
      exact ⟨_, rfl⟩
  rw [root]
  split
  · exact ⟨_, rfl⟩
  · obtain ⟨hashes, hh⟩ := hread (getPeakIndices (leafPos leaves.length)) fun p hp => by
      rw [getPeakIndices_leafPos] at hp
      have hlt := (peaksFrom_bounds hp).2
      rw [h.length_eq]
      omega
    rw [hh]
    exact ⟨_, rfl⟩

/-- **The root at the size of the range determines the leaves.** -/
theorem eq_of_root_eq (hG : G.InjectiveWithIndex) {file file' : List Hash}
    {leaves leaves' : List (List UInt8)} (h : IsRangeOf G file leaves)
    (h' : IsRangeOf G file' leaves') (hlen : leaves.length = leaves'.length) {r : Hash}
    (hr : root G file (leafPos leaves.length) none = .ok r)
    (hr' : root G file' (leafPos leaves.length) none = .ok r) : leaves = leaves' := by
  rw [root, getPeakIndices_leafPos] at hr hr'
  split at hr
  · next h0 =>
    have hn : leaves.length = 0 := Nat.le_zero.mp (h0 ▸ le_leafPos leaves.length)
    have hn' : leaves'.length = 0 := hlen ▸ hn
    rw [List.eq_nil_of_length_eq_zero hn, List.eq_nil_of_length_eq_zero hn']
  · next h0 =>
    rw [if_neg h0] at hr'
    rcases hp : peakHashes file none _ with e | hs
    · rw [hp] at hr; cases hr
    rcases hp' : peakHashes file' none _ with e | hs'
    · rw [hp'] at hr'; cases hr'
    rw [hp] at hr
    rw [hp'] at hr'
    rw [peakHashes_eq_ok] at hp hp'
    have hbag : bag (nodeHash G) Hash.zero (leafPos leaves.length) hs =
        bag (nodeHash G) Hash.zero (leafPos leaves.length) hs' :=
      (Except.ok.inj hr).trans (Except.ok.inj hr').symm
    -- Same root, so the same hashes at the peaks; same peaks, so the same leaves.
    have heq : hs = hs' := by
      refine bag_injective (nodeHash_injective hG) (peaksFrom_nodup _ _ _) (fun hmem => ?_)
        (hp.imp fun p a ha => h.tagged ha) (hp'.imp fun p a ha => h'.tagged ha) hbag
      have := (peaksFrom_bounds hmem).2
      omega
    refine h.eq_of_peaks (nodeHash_injective hG) h' hlen (lt_two_pow_bitLength_leafPos _)
      fun q hq => ?_
    exact agree_of_forall₂ hp (heq ▸ hp') q hq

end MMRHashUtil

end GrinPlusPlus
