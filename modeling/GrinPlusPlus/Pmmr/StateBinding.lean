import GrinPlusPlus.Core.SmallNet
import GrinPlusPlus.Pmmr.SegmentRoot
import GrinPlusPlus.Pmmr.TxHashSetValidator

/-!
# What the validation of a hash set binds

`TxHashSetValidator::Validate` compares every inner node that is there with its children, and
the roots over the peaks with the header. So the files of hashes are bound to the header: the
hash that is stored for a leaf under no pruned root is the only one the header commits to
(`GrinPlusPlus.TxHashSetValidator.validate_binds`).

The files of leaves are not. No pass hashes a leaf that is read from them, so a leaf hashes to
what is stored for it exactly when it is the one that the header commits to – which nothing
checks (`GrinPlusPlus.TxHashSetValidator.not_payloadBound_alteredState`). A leaf is only
looked at where the sums, the range proofs and the signatures of the kernels need a part of it.
-/

namespace GrinPlusPlus

open PostOrder Mountain MMRHashUtil MMRUtil Merkle

namespace PruneList

/-- A node below a pruned root, in addresses. -/
theorem isPruned_iff {l : PruneList} {h j : ℕ} :
    l.isPruned (nodePos h j) = true ↔
      ∃ k m, nodePos k m ∈ l.prunedRoots ∧ h ≤ k ∧ j / 2 ^ (k - h) = m := by
  rw [isPruned_iff_under]
  constructor
  · rintro ⟨root, hroot, hunder⟩
    obtain ⟨m, hm⟩ := exists_nodePos root
    generalize height root = k at hm
    subst hm
    exact ⟨k, m, hroot, below_iff.mp (below_nodePos_iff.mp (below_iff_under.mpr hunder))⟩
  · rintro ⟨k, m, hroot, hbelow⟩
    exact ⟨nodePos k m, hroot,
      below_iff_under.mp (below_nodePos_iff.mpr (below_iff.mpr hbelow))⟩

/-- **What is above a leaf under no pruned root**, and next to it, is not compacted. -/
theorem isCompacted_of_not_isPruned {l : PruneList} {i h j : ℕ}
    (hleaf : l.isPruned (leafPos i) = false) (hj : j / 2 = i / 2 ^ (h + 1)) :
    l.isCompacted (nodePos h j) = false := by
  by_contra hcompacted
  rw [Bool.not_eq_false, isCompacted, Bool.and_eq_true, isPruned_iff] at hcompacted
  obtain ⟨⟨k, m, hroot, hle, hdiv⟩, hnot⟩ := hcompacted
  have hlt : h < k := by
    by_contra hge
    obtain rfl : h = k := by omega
    rw [Nat.sub_self, pow_zero, Nat.div_one] at hdiv
    rw [hdiv, isPrunedRoot, List.contains_iff_mem.mpr hroot] at hnot
    cases hnot
  -- The root is above the parent, so above the leaf.
  obtain ⟨d, rfl⟩ := Nat.exists_eq_add_of_le hlt
  refine absurd (isPruned_iff.mpr ⟨h + 1 + d, m, hroot, Nat.zero_le _, ?_⟩) (by
    rw [nodePos_zero, hleaf]
    exact Bool.false_ne_true)
  rw [show h + 1 + d - h = d + 1 by omega, pow_succ', ← Nat.div_div_eq_div_mul, hj,
    Nat.div_div_eq_div_mul, ← pow_add] at hdiv
  rw [Nat.sub_zero, hdiv]

end PruneList

namespace TxHashSetValidator

variable {G : Global}

/-! ### One range -/

section Range

variable {get : ℕ → Except Exc (Option Hash)} {size n i : ℕ}

/-- The hash that is stored for a node. -/
def storedAt (get : ℕ → Except Exc (Option Hash)) (position : ℕ) : Hash :=
  match get position with
  | .ok (some hash) => hash
  | _ => Hash.zero

/-- **What the pass over the hashes says** of an inner node that is there with its children. -/
theorem of_validateMMRHashes (hvalid : validateMMRHashes G size get = true) {h j : ℕ}
    (hlt : nodePos (h + 1) j < size) (hparent : get (nodePos (h + 1) j) ≠ .ok none)
    (hleft : get (nodePos h (2 * j)) ≠ .ok none)
    (hright : get (nodePos h (2 * j + 1)) ≠ .ok none) :
    ∃ parent left right, get (nodePos (h + 1) j) = .ok (some parent) ∧
      get (nodePos h (2 * j)) = .ok (some left) ∧
      get (nodePos h (2 * j + 1)) = .ok (some right) ∧
      parent = hashParentWithIndex G left right (nodePos (h + 1) j) := by
  rw [validateMMRHashes, List.all_eq_true] at hvalid
  have hnode := hvalid _ (List.mem_range.mpr hlt)
  have hl : Index.getLeftChild (nodePos (h + 1) j) (h + 1) = nodePos h (2 * j) := by
    rw [Index.getLeftChild, ← nodePos_left, Nat.add_sub_cancel]
  have hr : Index.getRightChild (nodePos (h + 1) j) = nodePos h (2 * j + 1) := by
    rw [Index.getRightChild, ← nodePos_right, Nat.add_sub_cancel]
  rw [validateParent, Index.calculateHeight, height_nodePos, if_neg (Nat.succ_ne_zero h), hl,
    hr] at hnode
  rcases hp : get (nodePos (h + 1) j) with e | parent
  · rw [hp] at hnode
    cases hnode
  rcases parent with _ | parent
  · exact absurd hp hparent
  rcases ha : get (nodePos h (2 * j)) with e | left
  · rw [hp, ha] at hnode
    cases hnode
  rcases left with _ | left
  · exact absurd ha hleft
  rcases hb : get (nodePos h (2 * j + 1)) with e | right
  · rw [hp, ha, hb] at hnode
    cases hnode
  rcases right with _ | right
  · exact absurd hb hright
  rw [hp, ha, hb] at hnode
  exact ⟨parent, left, right, rfl, rfl, rfl, of_decide_eq_true hnode⟩

/-- All nodes above a leaf are there, and so are their children. -/
def Present (get : ℕ → Except Exc (Option Hash)) (i : ℕ) : Prop :=
  ∀ h j, j / 2 = i / 2 ^ (h + 1) → get (nodePos h j) ≠ .ok none

/-- **From a leaf to its peak**: the stored hashes are a way up. -/
theorem exists_climb_peak (hvalid : validateMMRHashes G size get = true) (hp : Present get i)
    {h : ℕ} (hlt : nodePos h (i / 2 ^ h) < size) {peak : Hash}
    (hpeak : get (nodePos h (i / 2 ^ h)) = .ok (some peak)) :
    ∃ hash steps siblings, get (leafPos i) = .ok (some hash) ∧
      Sub (completeTree h (i / 2 ^ h)) steps (.leaf (leafPos i)) ∧
      climb (combine G) steps hash siblings = some (peak, []) := by
  induction h generalizing peak with
  | zero =>
    rw [pow_zero, Nat.div_one, nodePos_zero] at hpeak
    rw [pow_zero, Nat.div_one, completeTree, nodePos_zero]
    exact ⟨peak, [], [], hpeak, .refl _, rfl⟩
  | succ h ih =>
    have hhalf : i / 2 ^ (h + 1) = i / 2 ^ h / 2 := by rw [pow_succ, Nat.div_div_eq_div_mul]
    have hleft := nodePos_left h (i / 2 ^ (h + 1))
    have hright := nodePos_right h (i / 2 ^ (h + 1))
    have hpos : 0 < 2 ^ (h + 1) := Nat.two_pow_pos _
    obtain ⟨parent, a, b, hparent, ha, hb, heq⟩ := of_validateMMRHashes hvalid hlt
      (by rw [hpeak]; rintro ⟨⟩) (hp h _ (by omega)) (hp h _ (by omega))
    rw [hpeak] at hparent
    cases hparent
    rw [completeTree, heq]
    -- The leaf is below the left child or below the right one.
    rcases Nat.even_or_odd' (i / 2 ^ h) with ⟨j, hj | hj⟩
    · have hchild : 2 * (i / 2 ^ (h + 1)) = i / 2 ^ h := by omega
      rw [hchild] at ha hleft ⊢
      obtain ⟨hash, steps, siblings, hleaf, hsub, hclimb⟩ := ih (by omega) ha
      exact ⟨hash, _, siblings ++ [b], hleaf, .left hsub, climb_append_some hclimb rfl⟩
    · have hchild : 2 * (i / 2 ^ (h + 1)) + 1 = i / 2 ^ h := by omega
      rw [hchild] at hb hright ⊢
      obtain ⟨hash, steps, siblings, hleaf, hsub, hclimb⟩ := ih (by omega) hb
      exact ⟨hash, _, siblings ++ [a], hleaf, .right hsub, climb_append_some hclimb rfl⟩

/-- Without empty peaks there is a root. -/
theorem bag_ne_zero (hz : G.NonzeroWithIndex) {a : Hash} {as : List Hash}
    (hne : ∀ b ∈ a :: as, b ≠ Hash.zero) :
    bag (nodeHash G) Hash.zero size (a :: as) ≠ Hash.zero := by
  have ha := hne a (List.mem_cons_self ..)
  rw [bag, if_neg ha]
  split
  · exact ha
  · exact hz.parent _ _ _

/-- **From a peak to the root**: the way goes on in the bag of the peaks. -/
theorem exists_climb_bag (s : ℕ) (hz : G.NonzeroWithIndex) {q p : ℕ × ℕ} {qs : List (ℕ × ℕ)}
    {a : Hash}
    {as : List Hash} (hlength : qs.length = as.length) (hne : ∀ b ∈ a :: as, b ≠ Hash.zero)
    {hash peak : Hash} (hmem : (p, peak) ∈ (q :: qs).zip (a :: as)) {place : ℕ}
    {steps : List Step} {siblings : List Hash}
    (hsub : Sub (completeTree p.1 p.2) steps (.leaf place))
    (hclimb : climb (combine G) steps hash siblings = some (peak, [])) :
    ∃ steps siblings, Sub (bagTree s q qs) steps (.leaf place) ∧
      climb (combine G) steps hash siblings =
        some (bag (nodeHash G) Hash.zero s (a :: as), []) := by
  induction qs generalizing q a as with
  | nil =>
    obtain rfl : as = [] := List.eq_nil_of_length_eq_zero hlength.symm
    obtain ⟨rfl, rfl⟩ := Prod.mk.inj (List.mem_singleton.mp hmem)
    rw [bag, if_neg (hne _ (List.mem_cons_self ..)), bag, if_pos rfl]
    exact ⟨steps, siblings, hsub, hclimb⟩
  | cons q' qs ih =>
    obtain ⟨a', as, rfl⟩ := List.exists_cons_of_length_eq_add_one hlength.symm
    have hne' : ∀ b ∈ a' :: as, b ≠ Hash.zero := fun b hb => hne b (List.mem_cons_of_mem _ hb)
    have hrest : bag (nodeHash G) Hash.zero s (a' :: as) ≠ Hash.zero := bag_ne_zero hz hne'
    rw [bag, if_neg (hne _ (List.mem_cons_self ..)), if_neg hrest, bagTree]
    rw [List.zip_cons_cons, List.mem_cons] at hmem
    rcases hmem with heq | hmem
    · obtain ⟨rfl, rfl⟩ := Prod.mk.inj heq
      exact ⟨_, siblings ++ [_], .left hsub, climb_append_some hclimb rfl⟩
    · obtain ⟨steps, siblings, hsub, hclimb⟩ := ih (Nat.succ.inj hlength) hne' hmem
      exact ⟨_, siblings ++ [_], .right hsub, climb_append_some hclimb rfl⟩

/-- What the root reads at a peak that is there is what is stored for it. -/
def ReadsPeaks (get : ℕ → Except Exc (Option Hash)) (n : ℕ) (hashes : List Hash) : Prop :=
  List.Forall₂ (fun q hash => get (nodePos q.1 q.2) ≠ .ok none →
    get (nodePos q.1 q.2) = .ok (some hash)) (rangePeaks n) hashes

/-- **The hash of a leaf is bound** to the root over the peaks. -/
theorem exists_commits (hz : G.NonzeroWithIndex)
    (hvalid : validateMMRHashes G (leafPos n) get = true) (hi : i < n) (hp : Present get i)
    {hashes : List Hash} (hreads : ReadsPeaks get n hashes)
    (hne : ∀ hash ∈ hashes, hash ≠ Hash.zero) :
    ∃ hash, get (leafPos i) = .ok (some hash) ∧
      Segment.Commits G (leafPos n) (bag (nodeHash G) Hash.zero (leafPos n) hashes) i hash := by
  have hnode : nodePos 0 i < leafPos n :=
    nodePos_lt_leafPos_iff.mpr (by rw [pow_zero, Nat.one_mul]; exact hi)
  obtain ⟨top, htop⟩ := exists_top hnode
  have hblock : top.2 = i / 2 ^ top.1 := by rw [htop.block_eq, Nat.sub_zero]
  -- What is read at the peak above the leaf.
  obtain ⟨k, hk⟩ := List.mem_iff_getElem?.mp htop.mem_rangePeaks
  obtain ⟨hklt, hget⟩ := List.getElem?_eq_some_iff.mp hk
  have hklt' : k < hashes.length := hreads.length_eq ▸ hklt
  have hread := List.Forall₂.get hreads hklt hklt'
  have hk' := List.getElem?_eq_getElem hklt'
  rw [List.get_eq_getElem, List.get_eq_getElem, hget, hblock] at hread
  generalize hashes[k] = peak at hread hk'
  have hpeak := hread (hp top.1 _ (by rw [pow_succ, Nat.div_div_eq_div_mul]))
  obtain ⟨hash, steps, siblings, hleaf, hsub, hclimb⟩ :=
    exists_climb_peak hvalid hp (hblock ▸ htop.lt) hpeak
  refine ⟨hash, hleaf, ?_⟩
  have hzip : (top, peak) ∈ (rangePeaks n).zip hashes :=
    List.mem_of_getElem? (List.getElem?_zip_eq_some.mpr ⟨hk, hk'⟩)
  rcases hpeaks : rangePeaks n with _ | ⟨q, qs⟩
  · rw [hpeaks] at hzip
    cases hzip
  rcases hhashes : hashes with _ | ⟨a, as⟩
  · rw [hhashes, List.zip_nil_right] at hzip
    cases hzip
  subst hhashes
  have hlength := hreads.length_eq
  rw [hpeaks] at hzip hlength
  obtain ⟨way, siblings, hway, hclimb⟩ := exists_climb_bag (leafPos n) hz
    (Nat.succ.inj hlength) hne hzip (hblock ▸ hsub) hclimb
  -- It is the way that the proof of the leaf takes.
  have hsteps : Sub (rangeTree n) (SegmentProof.steps (leafPos n) (leafPos (2 ^ 0 * i))
      (nodePos 0 i) (leafPos i + 1)) (completeTree 0 i) :=
    SegmentProof.sub_of_node (by rw [pow_zero]; omega) (by rw [nodePos_zero])
  rw [pow_zero, Nat.one_mul, nodePos_zero, completeTree, nodePos_zero] at hsteps
  have hwhole : Sub (rangeTree n) way (.leaf (leafPos i)) := by
    rw [rangeTree, hpeaks]
    exact hway
  rw [Segment.commits_iff, hsteps.steps_unique (nodup_places_rangeTree (by omega)) hwhole]
  exact ⟨siblings, hclimb⟩

/-- **One hash is bound** to each leaf that is there. -/
theorem exists_commits_of_root (hz : G.NonzeroWithIndex) (pruneList : Option PruneList)
    {file hashes : List Hash}
    (hread : ∀ p, get p ≠ .ok none →
      get p = (getDataAt file (getShiftedIndex p pruneList)).map some)
    (hvalid : validateMMRHashes G (leafPos n) get = true) (hi : i < n) (hp : Present get i)
    (hhashes : peakHashes file pruneList (getPeakIndices (leafPos n)) = .ok hashes)
    (hne : ∀ hash ∈ hashes, hash ≠ Hash.zero) :
    ∃ hash, get (leafPos i) = .ok (some hash) ∧
      Segment.Commits G (leafPos n) (bag (nodeHash G) Hash.zero (leafPos n) hashes) i hash := by
  refine exists_commits hz hvalid hi hp ?_ hne
  rw [peakHashes_eq_ok_shifted, getPeakIndices_eq, List.forall₂_map_left_iff] at hhashes
  refine hhashes.imp fun q hash hq hthere => ?_
  rw [hread _ hthere, getDataAt, hq]
  rfl

end Range

/-! ### The whole state -/

/-- The leaf hash that a header commits to. -/
def CommitsKernel (G : Global) (header : BlockHeader) (i : ℕ) (hash : Hash) : Prop :=
  Segment.Commits G header.getKernelMMRSize header.kernelRoot i hash

/-- The output root of a header, which from version 3 on is merged with a root of the unspent
outputs. -/
def OutputRoot (G : Global) (header : BlockHeader) (root : Hash) : Prop :=
  if header.version < 3 then root = header.outputRoot
  else ∃ ubmt, hashParentWithIndex G root ubmt header.getOutputMMRSize = header.outputRoot

/-- The leaf hash that a header commits to. -/
def CommitsOutput (G : Global) (header : BlockHeader) (i : ℕ) (hash : Hash) : Prop :=
  ∃ root, OutputRoot G header root ∧ Segment.Commits G header.getOutputMMRSize root i hash

/-- The leaf hash that a header commits to. -/
def CommitsRangeProof (G : Global) (header : BlockHeader) (i : ℕ) (hash : Hash) : Prop :=
  Segment.Commits G header.getOutputMMRSize header.rangeProofRoot i hash

/-- **What is bound at a leaf**: the stored hash is the one that the header commits to. So a
leaf that is read hashes to it when, and only when, the header commits to that leaf. -/
def Binds (G : Global) (commits : ℕ → Hash → Prop) (get : ℕ → Except Exc (Option Hash))
    (data : ℕ → Option (List UInt8)) (i : ℕ) : Prop :=
  ∃ hash, get (leafPos i) = .ok (some hash) ∧ (∀ other, commits i other ↔ other = hash) ∧
    ∀ leaf, data i = some leaf → (hashLeafWithIndex G leaf (leafPos i) = hash ↔
      commits i (hashLeafWithIndex G leaf (leafPos i)))

theorem Binds.of_unique {commits : ℕ → Hash → Prop} {get : ℕ → Except Exc (Option Hash)}
    {data : ℕ → Option (List UInt8)} {i : ℕ} {hash : Hash}
    (hget : get (leafPos i) = .ok (some hash)) (hcommits : commits i hash)
    (hunique : ∀ other, commits i other → other = hash) : Binds G commits get data i := by
  have hiff : ∀ other, commits i other ↔ other = hash :=
    fun other => ⟨hunique other, fun h => h ▸ hcommits⟩
  exact ⟨hash, hget, hiff, fun leaf _ => (hiff _).symm⟩

theorem OutputRoot.unique (hG : G.InjectiveWithIndex) {header : BlockHeader} {r r' : Hash}
    (h : OutputRoot G header r) (h' : OutputRoot G header r') : r = r' := by
  rw [OutputRoot] at h h'
  split at h
  · next hversion =>
    rw [if_pos hversion] at h'
    rw [h, h']
  · next hversion =>
    rw [if_neg hversion] at h'
    obtain ⟨u, hu⟩ := h
    obtain ⟨u', hu'⟩ := h'
    exact (hG.parent _ _ _ _ _ _ (hu.trans hu'.symm)).2.1

theorem CommitsOutput.unique (hG : G.InjectiveWithIndex) {header : BlockHeader} {i : ℕ}
    {hash hash' : Hash} (h : CommitsOutput G header i hash) (h' : CommitsOutput G header i hash') :
    hash = hash' := by
  obtain ⟨r, hr, hc⟩ := h
  obtain ⟨r', hr', hc'⟩ := h'
  obtain rfl := hr.unique hG hr'
  exact hc.unique hG hc'

/-- No peak has the empty hash, which the root leaves out. -/
def NoEmptyPeak (file : List Hash) (pruneList : Option PruneList) (size : ℕ) : Prop :=
  ∀ hashes, peakHashes file pruneList (getPeakIndices size) = .ok hashes →
    ∀ hash ∈ hashes, hash ≠ Hash.zero

/-- The sizes of the header are sizes of ranges, and no peak is left out of a root. -/
structure Rooted (t : TxHashSet) (header : BlockHeader) : Prop where
  /-- The size of the kernels. -/
  kernelSize : ∃ n, header.getKernelMMRSize = leafPos n
  /-- The size of the outputs. -/
  outputSize : ∃ n, header.getOutputMMRSize = leafPos n
  /-- The peaks of the kernels. -/
  kernelPeaks : NoEmptyPeak t.kernelMMR.current.hashFile none header.getKernelMMRSize
  /-- The peaks of the outputs. -/
  outputPeaks : NoEmptyPeak t.outputPMMR.current.hashFile
    (some t.outputPMMR.current.pruneList) header.getOutputMMRSize
  /-- The peaks of the range proofs. -/
  rangeProofPeaks : NoEmptyPeak t.rangeProofPMMR.current.hashFile
    (some t.rangeProofPMMR.current.pruneList) header.getOutputMMRSize

/-- A root is the bag of the hashes at the peaks. -/
theorem exists_peakHashes {file : List Hash} {pruneList : Option PruneList} {size : ℕ} {r : Hash}
    (hpos : size ≠ 0) (h : MMRHashUtil.root G file size pruneList = .ok r) :
    ∃ hashes, peakHashes file pruneList (getPeakIndices size) = .ok hashes ∧
      r = bag (nodeHash G) Hash.zero size hashes := by
  rw [MMRHashUtil.root, if_neg hpos] at h
  obtain ⟨hashes, hhashes, h⟩ := Exec.of_bind_eq_ok h
  cases h
  exact ⟨hashes, hhashes, rfl⟩

theorem exists_commits_kernel (hz : G.NonzeroWithIndex) {f : KernelFiles} {size i : ℕ}
    {r : Hash} (hn : ∃ n, size = leafPos n)
    (hvalid : validateMMRHashes G size f.getHashAt = true) (hi : leafPos i < size)
    (hroot : f.root G size = .ok r) (hne : NoEmptyPeak f.hashFile none size) :
    ∃ hash, f.getHashAt (leafPos i) = .ok (some hash) ∧ Segment.Commits G size r i hash := by
  obtain ⟨n, rfl⟩ := hn
  obtain ⟨hashes, hhashes, rfl⟩ := exists_peakHashes (Nat.ne_zero_of_lt hi) hroot
  have hthere : ∀ p, f.getHashAt p ≠ .ok none := by
    rintro p hp
    rw [KernelFiles.getHashAt] at hp
    obtain ⟨hash, -, hp⟩ := Exec.of_bind_eq_ok hp
    cases hp
  exact exists_commits_of_root hz none (fun p _ => rfl) hvalid
    (leafPos_strictMono.lt_iff_lt.mp hi) (fun _ _ _ => hthere _) hhashes (hne _ hhashes)

theorem exists_commits_pruneable (hz : G.NonzeroWithIndex) {α : Type} {f : PruneableFiles α}
    {size i : ℕ} {r : Hash} (hn : ∃ n, size = leafPos n)
    (hvalid : validateMMRHashes G size f.getHashAt = true) (hi : leafPos i < size)
    (hpruned : f.pruneList.isPruned (leafPos i) = false) (hroot : f.root G size = .ok r)
    (hne : NoEmptyPeak f.hashFile (some f.pruneList) size) :
    ∃ hash, f.getHashAt (leafPos i) = .ok (some hash) ∧ Segment.Commits G size r i hash := by
  obtain ⟨n, rfl⟩ := hn
  obtain ⟨hashes, hhashes, rfl⟩ := exists_peakHashes (Nat.ne_zero_of_lt hi) hroot
  have hread : ∀ p, f.getHashAt p ≠ .ok none →
      f.getHashAt p = (getDataAt f.hashFile (getShiftedIndex p (some f.pruneList))).map some := by
    intro p hp
    rw [PruneableFiles.getHashAt] at hp ⊢
    split
    · next hcompacted => exact absurd (if_pos hcompacted) hp
    · next hcompacted =>
      rw [MMRHashUtil.getHashAt, if_neg hcompacted]
      rfl
  have hpresent : Present f.getHashAt i := by
    intro h j hj hnone
    rw [PruneableFiles.getHashAt, PruneList.isCompacted_of_not_isPruned hpruned hj,
      if_neg Bool.false_ne_true] at hnone
    obtain ⟨hash, -, hnone⟩ := Exec.of_bind_eq_ok hnone
    cases hnone
  exact exists_commits_of_root hz _ hread hvalid (leafPos_strictMono.lt_iff_lt.mp hi) hpresent
    hhashes (hne _ hhashes)

/-- What a successful validation says about sizes, hashes and roots. -/
structure Checked (G : Global) (t : TxHashSet) (header : BlockHeader) : Prop where
  /-- The sizes are those of the header. -/
  sizes : validateSizes t header = true
  /-- The hashes of the kernels fit each other. -/
  kernelHashes : validateMMRHashes G header.getKernelMMRSize t.kernelMMR.current.getHashAt = true
  /-- The hashes of the outputs fit each other. -/
  outputHashes : validateMMRHashes G header.getOutputMMRSize t.outputPMMR.current.getHashAt = true
  /-- The hashes of the range proofs fit each other. -/
  rangeProofHashes :
    validateMMRHashes G header.getOutputMMRSize t.rangeProofPMMR.current.getHashAt = true
  /-- The roots are those of the header. -/
  roots : t.validateRoots G header = .ok true

theorem checked_of_validate {getHeader : ℕ → Option BlockHeader} {t : TxHashSet}
    {header : BlockHeader} {sums : BlockSums}
    (h : validate G getHeader t header = .ok (some sums)) : Checked G t header := by
  rw [validate] at h
  split at h
  · cases h
  · next hsizes =>
    rw [Bool.not_eq_false] at hsizes
    split at h
    · cases h
    · next hhashes =>
      rw [Bool.not_eq_false, Bool.and_eq_true, Bool.and_eq_true] at hhashes
      obtain ⟨valid, hvalid, h⟩ := Exec.of_bind_eq_ok h
      have heq := hsizes
      simp only [validateSizes, Bool.and_eq_true, decide_eq_true_eq] at heq
      rw [heq.1.1, heq.1.2, heq.2] at hhashes
      rcases valid with _ | _
      · rw [if_pos rfl] at h
        cases h
      · exact ⟨hsizes, hhashes.1.1, hhashes.1.2, hhashes.2, hvalid⟩

/-- The three roots that are compared with the header. -/
theorem of_validateRoots {t : TxHashSet} {header : BlockHeader}
    (h : t.validateRoots G header = .ok true) :
    t.kernelMMR.current.root G header.getKernelMMRSize = .ok header.kernelRoot ∧
      (∃ root, t.outputPMMR.current.root G header.getOutputMMRSize = .ok root ∧
        OutputRoot G header root) ∧
      t.rangeProofPMMR.current.root G header.getOutputMMRSize = .ok header.rangeProofRoot := by
  rw [TxHashSet.validateRoots] at h
  obtain ⟨kernelRoot, hkernel, h⟩ := Exec.of_bind_eq_ok h
  split at h
  · cases h
  · next hkernelRoot =>
    rw [not_not] at hkernelRoot
    obtain ⟨outputRoot, houtput, h⟩ := Exec.of_bind_eq_ok h
    obtain ⟨valid, hvalid, h⟩ := Exec.of_bind_eq_ok h
    split at h
    · cases h
    · next htrue =>
      rw [Bool.not_eq_false] at htrue
      obtain ⟨rangeProofRoot, hrangeProof, h⟩ := Exec.of_bind_eq_ok h
      have hrangeProofRoot := of_decide_eq_true (Except.ok.inj h)
      refine ⟨hkernelRoot ▸ hkernel, ⟨outputRoot, houtput, ?_⟩, hrangeProofRoot ▸ hrangeProof⟩
      rw [TxHashSet.outputRootValid] at hvalid
      rw [OutputRoot]
      subst htrue
      split at hvalid
      · next hversion =>
        rw [if_pos hversion]
        exact of_decide_eq_true (Except.ok.inj hvalid)
      · next hversion =>
        rw [if_neg hversion]
        obtain ⟨ubmt, -, hvalid⟩ := Exec.of_bind_eq_ok hvalid
        exact ⟨ubmt, of_decide_eq_true (Except.ok.inj hvalid)⟩

/-- **Validation binds the hashes of the leaves to the header**: those of all kernels, and those
of the outputs and range proofs under no pruned root. A leaf that is read hashes to what is
stored for it exactly when it is the one that the header commits to. -/
theorem validate_binds (hG : G.InjectiveWithIndex) (hz : G.NonzeroWithIndex)
    {getHeader : ℕ → Option BlockHeader} {t : TxHashSet} {header : BlockHeader} {sums : BlockSums}
    (h : validate G getHeader t header = .ok (some sums)) (hrooted : Rooted t header) :
    (∀ i, leafPos i < header.getKernelMMRSize →
      Binds G (CommitsKernel G header) t.kernelMMR.current.getHashAt
        (fun i => (t.kernelMMR.current.getKernelAt i).map TransactionKernel.serialize) i) ∧
    (∀ i, leafPos i < header.getOutputMMRSize →
      t.outputPMMR.current.pruneList.isPruned (leafPos i) = false →
        Binds G (CommitsOutput G header) t.outputPMMR.current.getHashAt
          (fun i => (t.outputPMMR.current.getAt i).map OutputIdentifier.serialize) i) ∧
    ∀ i, leafPos i < header.getOutputMMRSize →
      t.rangeProofPMMR.current.pruneList.isPruned (leafPos i) = false →
        Binds G (CommitsRangeProof G header) t.rangeProofPMMR.current.getHashAt
          (fun i => (t.rangeProofPMMR.current.getAt i).map RangeProof.serialize) i := by
  have hchecked := checked_of_validate h
  obtain ⟨hkernel, ⟨root, houtput, hroot⟩, hrangeProof⟩ := of_validateRoots hchecked.roots
  refine ⟨fun i hi => ?_, fun i hi hpruned => ?_, fun i hi hpruned => ?_⟩
  · obtain ⟨hash, hget, hcommits⟩ := exists_commits_kernel hz hrooted.kernelSize
      hchecked.kernelHashes hi hkernel hrooted.kernelPeaks
    exact .of_unique hget hcommits fun other hother => hother.unique hG hcommits
  · obtain ⟨hash, hget, hcommits⟩ := exists_commits_pruneable hz hrooted.outputSize
      hchecked.outputHashes hi hpruned houtput hrooted.outputPeaks
    exact .of_unique hget ⟨root, hroot, hcommits⟩
      fun other hother => hother.unique hG ⟨root, hroot, hcommits⟩
  · obtain ⟨hash, hget, hcommits⟩ := exists_commits_pruneable hz hrooted.outputSize
      hchecked.rangeProofHashes hi hpruned hrangeProof hrooted.rangeProofPeaks
    exact .of_unique hget hcommits fun other hother => hother.unique hG hcommits

/-! ### An altered leaf -/

section SmallNet

open SmallNet

/-- A state with one output that is not spent. -/
def oneOutput (kernels : KernelFiles) (features : OutputFeatures) (leafIndex : ℕ)
    (pruneList : PruneList) (outputs rangeProofs : List Hash) : TxHashSet where
  kernelMMR := .of kernels
  outputPMMR := .of ⟨outputs, fun i => i == leafIndex, pruneList,
    [⟨features, (coinbaseOutput 1).commitment⟩]⟩
  rangeProofPMMR := .of ⟨rangeProofs, fun i => i == leafIndex, pruneList, [rangeProof]⟩
  blockHeader := genesisHeader
  blockHeaderBackup := genesisHeader

/-- The kernels of the genesis block. -/
def genesisKernels : KernelFiles :=
  ⟨[genesisHeader.kernelRoot], [coinbaseKernel 1]⟩

/-- The files of the genesis block, with another byte for the features of the output. -/
def alteredState : TxHashSet :=
  oneOutput genesisKernels .default 0 .empty [genesisHeader.outputRoot]
    [genesisHeader.rangeProofRoot]

/-- The hash set is accepted for a header at height zero. -/
def IsAccepted (t : TxHashSet) (header : BlockHeader) : Prop :=
  ∃ sums, validate (smallNet .mainnet) (fun height => if height = 0 then some header else none) t
    header = .ok (some sums)

theorem isAccepted_of_isSome {t : TxHashSet} {header : BlockHeader}
    (hsome : ((validate (smallNet .mainnet)
      (fun height => if height = 0 then some header else none) t header).toOption.join).isSome =
        true) : IsAccepted t header := by
  rw [IsAccepted]
  rcases h : validate (smallNet .mainnet)
    (fun height => if height = 0 then some header else none) t header with e | sums
  · rw [h] at hsome
    cases hsome
  · rcases sums with _ | sums
    · rw [h] at hsome
      cases hsome
    · exact ⟨sums, rfl⟩

theorem rooted_alteredState : Rooted alteredState genesisHeader where
  kernelSize := ⟨1, by decide⟩
  outputSize := ⟨1, by decide⟩
  kernelPeaks := by
    rintro hashes hhashes
    cases hhashes
    decide +kernel
  outputPeaks := by
    rintro hashes hhashes
    cases hhashes
    decide +kernel
  rangeProofPeaks := by
    rintro hashes hhashes
    cases hhashes
    decide +kernel

theorem isAccepted_alteredState : IsAccepted alteredState genesisHeader :=
  isAccepted_of_isSome (by decide +kernel)

/-- What is stored for the output of the genesis block is what its header commits to. -/
theorem validate_binds_alteredState :
    Binds (smallNet .mainnet) (CommitsOutput (smallNet .mainnet) genesisHeader)
      alteredState.outputPMMR.current.getHashAt
      (fun i => (alteredState.outputPMMR.current.getAt i).map OutputIdentifier.serialize) 0 := by
  obtain ⟨sums, h⟩ := isAccepted_alteredState
  exact (validate_binds (injectiveWithIndex .mainnet) (nonzeroWithIndex .mainnet) h
    rooted_alteredState).2.1 0 (by decide) (by decide)

/-- **No pass hashes a leaf**: with another byte in the file of the outputs the hash set is still
accepted, and the output that is read does not hash to what is stored for it. -/
theorem not_payloadBound_alteredState :
    IsAccepted alteredState genesisHeader ∧
    ∃ output hash, alteredState.outputPMMR.current.getAt 0 = some output ∧
      alteredState.outputPMMR.current.getHashAt (leafPos 0) = .ok (some hash) ∧
      hashLeafWithIndex (smallNet .mainnet) output.serialize (leafPos 0) ≠ hash := by
  refine ⟨isAccepted_alteredState, ⟨.default, (coinbaseOutput 1).commitment⟩,
    genesisHeader.outputRoot, by decide +kernel, by decide +kernel, ?_⟩
  decide +kernel

/-! ### Leaves that are not bound -/

/-- Three leaves, the first two of them pruned, and an empty hash for the third. -/
def emptyPeakState : TxHashSet :=
  oneOutput genesisKernels .coinbaseOutput 2 ⟨[2], by decide⟩ [⟨1⟩, Hash.zero] [⟨1⟩, Hash.zero]

/-- Two leaves, the first of them a pruned root below a pruned root. -/
def nestedRootState : TxHashSet :=
  oneOutput genesisKernels .coinbaseOutput 0 ⟨[0, 2], by decide⟩ [⟨1⟩] [⟨1⟩]

/-- Two kernels, without their parent. -/
def openRangeState : TxHashSet :=
  oneOutput ⟨[⟨1⟩, ⟨1⟩], [coinbaseKernel 1, coinbaseKernel 0]⟩ .coinbaseOutput 0 .empty
    [genesisHeader.outputRoot] [genesisHeader.rangeProofRoot]

/-- A header for outputs of a given size, with the first hash as their roots. -/
def sizedHeader (size : UInt64) : BlockHeader :=
  { genesisHeader with outputMMRSize := size, outputRoot := ⟨1⟩, rangeProofRoot := ⟨1⟩ }

/-- A header for two kernels without their parent. -/
def openRangeHeader : BlockHeader :=
  { genesisHeader with kernelMMRSize := 2, kernelRoot := Hash.zero }

/-- A hash over a parent is not the first hash. -/
theorem hashParentWithIndex_ne_one (left right : Hash) (position : ℕ) :
    hashParentWithIndex (smallNet .mainnet) left right position ≠ ⟨1⟩ := by
  intro h
  have hval : 3 * Nat.pair position (Nat.pair left.value right.value) + 2 = 1 :=
    congrArg Hash.value h
  omega

/-- One step up never leads to the first hash. -/
theorem not_commits_of_steps {size i : ℕ} {hash : Hash} (step : Step)
    (hsteps : SegmentProof.steps size (leafPos i) (leafPos i) (leafPos i + 1) = [step]) :
    ¬Segment.Commits (smallNet .mainnet) size ⟨1⟩ i hash := by
  rw [Segment.commits_iff, hsteps]
  rintro ⟨siblings, hclimb⟩
  rcases siblings with _ | ⟨sibling, siblings⟩
  · cases hclimb
  · rw [climb, climb, Option.some_inj, Prod.mk.injEq, stepUp] at hclimb
    split at hclimb
    · exact hashParentWithIndex_ne_one _ _ _ hclimb.1
    · exact hashParentWithIndex_ne_one _ _ _ hclimb.1

/-- **The other conditions are needed**: an empty hash at a peak, a leaf under a pruned root and
a size without peaks all leave a stored hash that the header does not commit to. -/
theorem not_commits_outside :
    (IsAccepted emptyPeakState (sizedHeader 4) ∧
      emptyPeakState.outputPMMR.current.getHashAt (leafPos 2) = .ok (some Hash.zero) ∧
      ¬CommitsOutput (smallNet .mainnet) (sizedHeader 4) 2 Hash.zero) ∧
    (IsAccepted nestedRootState (sizedHeader 3) ∧
      nestedRootState.outputPMMR.current.getHashAt (leafPos 0) = .ok (some ⟨1⟩) ∧
      ¬CommitsOutput (smallNet .mainnet) (sizedHeader 3) 0 ⟨1⟩) ∧
    IsAccepted openRangeState openRangeHeader ∧
      openRangeState.kernelMMR.current.getHashAt (leafPos 0) = .ok (some ⟨1⟩) ∧
      ¬CommitsKernel (smallNet .mainnet) openRangeHeader 0 ⟨1⟩ := by
  refine ⟨⟨isAccepted_of_isSome (by decide +kernel), by decide +kernel, ?_⟩,
    ⟨isAccepted_of_isSome (by decide +kernel), by decide +kernel, ?_⟩,
    isAccepted_of_isSome (by decide +kernel), by decide +kernel, ?_⟩
  · rintro ⟨root, hroot, hcommits⟩
    obtain rfl : root = ⟨1⟩ := hroot
    exact not_commits_of_steps ⟨4, true⟩ (by decide +kernel) hcommits
  · rintro ⟨root, hroot, hcommits⟩
    obtain rfl : root = ⟨1⟩ := hroot
    exact not_commits_of_steps ⟨2, false⟩ (by decide +kernel) hcommits
  · -- Without steps a hash is only bound to itself.
    rw [CommitsKernel, Segment.commits_iff]
    rintro ⟨siblings, hclimb⟩
    have hsteps : SegmentProof.steps openRangeHeader.getKernelMMRSize (leafPos 0) (leafPos 0)
        (leafPos 0 + 1) = [] := by decide +kernel
    rw [hsteps, climb, Option.some_inj, Prod.mk.injEq] at hclimb
    exact absurd hclimb.1 (by decide)

end SmallNet

end TxHashSetValidator

end GrinPlusPlus
