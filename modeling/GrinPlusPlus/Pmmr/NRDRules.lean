import GrinPlusPlus.Core.SmallNet
import GrinPlusPlus.Pmmr.TxHashSetValidator
import Mathlib.Data.List.Chain
import Mathlib.Data.List.Nodup

/-!
# The two rules for kernels without recent duplicate

A kernel of this kind states a relative height, and its excess must not occur again within
that many blocks. The rule is checked in two places, in two ways:

* `TxHashSet::ValidateNRDKernelRules` checks one new block. It walks back over the headers as
  far as the greatest relative height of the block, and compares every kernel it finds with
  the kernels of the block;
* `TxHashSetValidator::ValidateNRDKernelHistory` checks a whole chain. It walks forward and
  remembers the last height of every excess only.

`GrinPlusPlus.NRDRules.NoRecentDuplicate` says what both are about, block by block. Each of
the two is shown to compute it (`GrinPlusPlus.NRDRules.validateNRDKernelRules_iff`,
`GrinPlusPlus.NRDRules.validateNRDKernelHistory_iff`), so **they agree**
(`GrinPlusPlus.NRDRules.history_iff_rules`).
-/

namespace GrinPlusPlus

namespace NRDRules

/-- The kernels without recent duplicate, each with its excess and its relative height. -/
def nrdEntries (kernels : List TransactionKernel) : List (Commitment × ℕ) :=
  kernels.filterMap fun k =>
    if k.features = .noRecentDuplicate then some (k.excessCommitment, k.lockHeight.toNat)
    else none

theorem nrdEntries_cons_of_ne {k : TransactionKernel} (hk : k.features ≠ .noRecentDuplicate)
    (ks : List TransactionKernel) : nrdEntries (k :: ks) = nrdEntries ks := by
  simp [nrdEntries, hk]

theorem nrdEntries_cons_of_eq {k : TransactionKernel} (hk : k.features = .noRecentDuplicate)
    (ks : List TransactionKernel) :
    nrdEntries (k :: ks) = (k.excessCommitment, k.lockHeight.toNat) :: nrdEntries ks := by
  simp [nrdEntries, hk]

/-- What a block of a chain has to satisfy, given the entries of all blocks by height. -/
structure NoRecentDuplicate (entries : ℕ → List (Commitment × ℕ)) (i : ℕ) : Prop where
  /-- Relative heights are positive and not above a week. -/
  range : ∀ e ∈ entries i, 0 < e.2 ∧ e.2 ≤ Consensus.weekHeight
  /-- No excess occurs twice. -/
  nodup : ((entries i).map Prod.fst).Nodup
  /-- No excess occurs in a block that is too close. -/
  apart : ∀ e ∈ entries i, ∀ j < i, e.1 ∈ (entries j).map Prod.fst → e.2 ≤ i - j

/-! ### The kernels of one block -/

/-- **The first loop of the block rule** collects the entries when they are in range and no
excess occurs twice. -/
theorem blockNRDKernels_eq_some_iff {ks : List TransactionKernel}
    {found found' : List (Commitment × ℕ)} :
    TxHashSet.blockNRDKernels ks found = some found' ↔
      found' = found ++ nrdEntries ks ∧
        (∀ e ∈ nrdEntries ks, 0 < e.2 ∧ e.2 ≤ Consensus.weekHeight) ∧
        ((nrdEntries ks).map Prod.fst).Nodup ∧
        ∀ e ∈ nrdEntries ks, e.1 ∉ found.map Prod.fst := by
  induction ks generalizing found with
  | nil =>
    rw [TxHashSet.blockNRDKernels, Option.some_inj]
    constructor
    · rintro rfl
      exact ⟨(List.append_nil found).symm, by simp [nrdEntries], List.nodup_nil,
        by simp [nrdEntries]⟩
    · rintro ⟨rfl, -⟩
      exact (List.append_nil found).symm
  | cons k ks ih =>
    rw [TxHashSet.blockNRDKernels]
    by_cases hk : k.features = .noRecentDuplicate
    · rw [if_neg (not_not.mpr hk), nrdEntries_cons_of_eq hk]
      simp only [List.forall_mem_cons, List.map_cons, List.nodup_cons]
      split
      · next hrange =>
        refine ⟨fun h => (by cases h), fun h => ?_⟩
        have := h.2.1.1
        omega
      · next hrange =>
        split
        · next hmem => exact ⟨fun h => (by cases h), fun h => absurd hmem h.2.2.2.1⟩
        · next hmem =>
          rw [ih]
          constructor
          · rintro ⟨rfl, hall, hnodup, hnew⟩
            refine ⟨by simp, ⟨by omega, hall⟩, ⟨fun hin => ?_, hnodup⟩, hmem, fun e he hin => ?_⟩
            · obtain ⟨e, he, heq⟩ := List.mem_map.mp hin
              exact hnew e he (by simp [heq])
            · exact hnew e he (by simp only [List.map_append, List.mem_append]; exact .inl hin)
          · rintro ⟨rfl, ⟨-, hall⟩, ⟨hne, hnodup⟩, -, hnew⟩
            refine ⟨by simp, hall, hnodup, fun e he hin => ?_⟩
            rw [List.map_append, List.mem_append] at hin
            rcases hin with hin | hin
            · exact hnew e he hin
            · rw [List.map_singleton, List.mem_singleton] at hin
              exact hne (List.mem_map.mpr ⟨e, he, hin⟩)
    · rw [if_pos hk, nrdEntries_cons_of_ne hk]
      exact ih

/-- A run of kernels, by index. -/
def slice (kernels : List TransactionKernel) (first n : ℕ) : List TransactionKernel :=
  (kernels.drop first).take n

theorem slice_succ {kernels : List TransactionKernel} {first n : ℕ}
    (h : first + (n + 1) ≤ kernels.length) :
    ∃ k, kernels[first]? = some k ∧
      slice kernels first (n + 1) = k :: slice kernels (first + 1) n := by
  have hlt : first < kernels.length := by omega
  refine ⟨kernels[first], List.getElem?_eq_getElem hlt, ?_⟩
  rw [slice, List.drop_eq_getElem_cons hlt, List.take_succ_cons]
  rfl

theorem tooSoon_iff (positions : List (Commitment × ℕ)) (height : ℕ)
    (kernel : TransactionKernel) :
    TxHashSetValidator.tooSoon positions height kernel = true ↔
      ∃ h, positions.lookup kernel.excessCommitment = some h ∧
        height - h < kernel.lockHeight.toNat := by
  rw [TxHashSetValidator.tooSoon]
  rcases positions.lookup kernel.excessCommitment with _ | previous
  · simp
  · simp

/-- **The inner loop of the chain rule**: the entries are in range, no excess occurs twice, and
none is too close to its last height. The last heights are noted in front. -/
theorem nrdKernelHistory_eq_some_iff {f : KernelFiles} {height first n : ℕ}
    (hlen : first + n ≤ f.dataFile.length) {positions positions' : List (Commitment × ℕ)} :
    TxHashSetValidator.nrdKernelHistory f height (List.range' first n) positions =
        some positions' ↔
      positions' = ((nrdEntries (slice f.dataFile first n)).map
          fun e => (e.1, height)).reverse ++ positions ∧
        (∀ e ∈ nrdEntries (slice f.dataFile first n), 0 < e.2 ∧ e.2 ≤ Consensus.weekHeight) ∧
        ((nrdEntries (slice f.dataFile first n)).map Prod.fst).Nodup ∧
        ∀ e ∈ nrdEntries (slice f.dataFile first n), ∀ h, positions.lookup e.1 = some h →
          e.2 ≤ height - h := by
  induction n generalizing first positions with
  | zero =>
    rw [List.range'_zero, TxHashSetValidator.nrdKernelHistory, Option.some_inj]
    constructor
    · rintro rfl
      simp [slice, nrdEntries]
    · rintro ⟨rfl, -⟩
      rfl
  | succ n ih =>
    obtain ⟨k, hk, hslice⟩ := slice_succ hlen
    rw [List.range'_succ, TxHashSetValidator.nrdKernelHistory, KernelFiles.getKernelAt, hk, hslice]
    dsimp only
    by_cases hnrd : k.features = .noRecentDuplicate
    · rw [if_neg (not_not.mpr hnrd), nrdEntries_cons_of_eq hnrd]
      simp only [List.forall_mem_cons, List.map_cons, List.nodup_cons, List.reverse_cons]
      rw [if_congr (or_congr Iff.rfl (or_congr Iff.rfl (tooSoon_iff ..))) rfl rfl]
      split
      · next hbad =>
        refine ⟨fun h => (by cases h), fun h => ?_⟩
        obtain ⟨-, ⟨hrange, -⟩, -, hfirst, -⟩ := h
        rcases hbad with hbad | hbad | ⟨previous, hprevious, hlt⟩
        · omega
        · omega
        · have := hfirst previous hprevious
          omega
      · next hgood =>
        have hfirst : ∀ h, positions.lookup k.excessCommitment = some h →
            k.lockHeight.toNat ≤ height - h := by
          intro h hh
          by_contra hlt
          exact hgood (.inr (.inr ⟨h, hh, by omega⟩))
        rw [ih (by omega)]
        constructor
        · rintro ⟨rfl, hall, hnodup, hapart⟩
          -- An excess of this block has this height already, so it does not come again.
          have hne : ∀ e ∈ nrdEntries (slice f.dataFile (first + 1) n),
              e.1 ≠ k.excessCommitment := by
            intro e he heq
            have hzero := hapart e he height (by rw [heq, List.lookup_cons_self])
            have := (hall e he).1
            omega
          refine ⟨by simp, ⟨by omega, hall⟩, ⟨fun hin => ?_, hnodup⟩, hfirst,
            fun e he h hh => ?_⟩
          · obtain ⟨e, he, heq⟩ := List.mem_map.mp hin
            exact hne e he heq
          · refine hapart e he h ?_
            rw [List.lookup_cons, beq_false_of_ne (hne e he)]
            exact hh
        · rintro ⟨rfl, ⟨-, hall⟩, ⟨hnew, hnodup⟩, -, hapart⟩
          refine ⟨by simp, hall, hnodup, fun e he h hh => hapart e he h ?_⟩
          have hne : e.1 ≠ k.excessCommitment := fun heq =>
            hnew (List.mem_map.mpr ⟨e, he, heq⟩)
          rwa [List.lookup_cons, beq_false_of_ne hne] at hh
    · rw [if_pos hnrd, nrdEntries_cons_of_ne hnrd]
      exact ih (by omega)

/-! ### A chain of headers and its kernels -/

/-- The number of kernels up to a height. -/
def numKernelsAt (headers : List BlockHeader) (i : ℕ) : ℕ :=
  (headers[i]?.map BlockHeader.getNumKernels).getD 0

/-- The first kernel of a height. -/
def firstKernel (headers : List BlockHeader) : ℕ → ℕ
  | 0 => 0
  | i + 1 => numKernelsAt headers i

/-- The kernels of the block at a height. -/
def blockKernels (headers : List BlockHeader) (kernels : List TransactionKernel) (i : ℕ) :
    List TransactionKernel :=
  slice kernels (firstKernel headers i) (numKernelsAt headers i - firstKernel headers i)

/-- The entries of the block at a height. -/
def entriesOf (headers : List BlockHeader) (kernels : List TransactionKernel) (i : ℕ) :
    List (Commitment × ℕ) :=
  nrdEntries (blockKernels headers kernels i)

/-- Headers with consecutive heights and kernel counts that do not decrease, and kernels that
are consistent with the counts. -/
structure KernelChain (headers : List BlockHeader) (kernels : List TransactionKernel) : Prop where
  /-- The heights are consecutive. -/
  heights : ∀ (i : ℕ) (h : BlockHeader), headers[i]? = some h → h.getHeight = i
  /-- The counts do not decrease. -/
  counts : headers.IsChain fun a b => a.getNumKernels ≤ b.getNumKernels
  /-- There are enough kernels. -/
  enough : ∀ h ∈ headers, h.getNumKernels ≤ kernels.length

variable {headers : List BlockHeader} {kernels : List TransactionKernel} {i j : ℕ}
  {header : BlockHeader}

theorem numKernelsAt_eq (h : headers[i]? = some header) :
    numKernelsAt headers i = header.getNumKernels := by
  rw [numKernelsAt, h]
  rfl

theorem KernelChain.firstKernel_le (h : KernelChain headers kernels) (hi : i < headers.length) :
    firstKernel headers i ≤ numKernelsAt headers i := by
  cases i with
  | zero => exact Nat.zero_le _
  | succ i =>
    have hstep := List.isChain_iff_getElem.mp h.counts i hi
    rw [firstKernel, numKernelsAt_eq (List.getElem?_eq_getElem (by omega)),
      numKernelsAt_eq (List.getElem?_eq_getElem hi)]
    exact hstep

theorem KernelChain.numKernelsAt_mono (h : KernelChain headers kernels) (hij : i ≤ j)
    (hj : j < headers.length) : numKernelsAt headers i ≤ numKernelsAt headers j := by
  induction j, hij using Nat.le_induction with
  | base => exact le_rfl
  | succ j _ ih => exact (ih (by omega)).trans (h.firstKernel_le hj)

theorem KernelChain.numKernelsAt_le (h : KernelChain headers kernels) (hi : i < headers.length) :
    numKernelsAt headers i ≤ kernels.length := by
  rw [numKernelsAt_eq (List.getElem?_eq_getElem hi)]
  exact h.enough _ (List.getElem_mem hi)

/-! ### The chain rule -/

/-- The noted heights are the last ones below a height. -/
structure LastHeights (entries : ℕ → List (Commitment × ℕ)) (i : ℕ)
    (positions : List (Commitment × ℕ)) : Prop where
  /-- What is noted is the last time. -/
  noted : ∀ c h, positions.lookup c = some h → h < i ∧ c ∈ (entries h).map Prod.fst ∧
    ∀ j < i, c ∈ (entries j).map Prod.fst → j ≤ h
  /-- What is not noted did not occur. -/
  unnoted : ∀ c, positions.lookup c = none → ∀ j < i, c ∉ (entries j).map Prod.fst

variable {entries : ℕ → List (Commitment × ℕ)} {positions : List (Commitment × ℕ)}

/-- To be apart from every earlier block is to be apart from the last one. -/
theorem LastHeights.apart_iff (h : LastHeights entries i positions) (e : Commitment × ℕ) :
    (∀ k, positions.lookup e.1 = some k → e.2 ≤ i - k) ↔
      ∀ j < i, e.1 ∈ (entries j).map Prod.fst → e.2 ≤ i - j := by
  constructor
  · intro hlast j hj hmem
    rcases hlookup : positions.lookup e.1 with _ | k
    · exact absurd hmem (h.unnoted _ hlookup j hj)
    · have := hlast k hlookup
      have := (h.noted _ _ hlookup).2.2 j hj hmem
      omega
  · intro hall k hk
    obtain ⟨hlt, hmem, -⟩ := h.noted _ _ hk
    exact hall k hlt hmem

theorem lookup_map_height (l : List (Commitment × ℕ)) (height : ℕ) (c : Commitment) :
    (l.map fun e => (e.1, height)).lookup c =
      if c ∈ l.map Prod.fst then some height else none := by
  induction l with
  | nil => rfl
  | cons e l ih =>
    rw [List.map_cons, List.lookup_cons, ih, List.map_cons]
    by_cases heq : c = e.1
    · simp [heq]
    · rw [beq_false_of_ne heq]
      simp only [List.mem_cons, heq, false_or]

theorem LastHeights.next (h : LastHeights entries i positions) :
    LastHeights entries (i + 1)
      (((entries i).map fun e => (e.1, i)).reverse ++ positions) := by
  have hlookup : ∀ c, (((entries i).map fun e => (e.1, i)).reverse ++ positions).lookup c =
      if c ∈ (entries i).map Prod.fst then some i else positions.lookup c := by
    intro c
    rw [List.lookup_append, ← List.map_reverse, lookup_map_height, List.map_reverse]
    simp only [List.mem_reverse]
    split
    · rfl
    · rfl
  refine ⟨fun c k hk => ?_, fun c hc j hj => ?_⟩
  · rw [hlookup] at hk
    split at hk
    · next hmem =>
      cases hk
      exact ⟨Nat.lt_succ_self i, hmem, fun j hj _ => by omega⟩
    · next hmem =>
      obtain ⟨hlt, hin, hlast⟩ := h.noted c k hk
      refine ⟨by omega, hin, fun j hj hj' => ?_⟩
      rcases Nat.lt_succ_iff_lt_or_eq.mp hj with hlt' | rfl
      · exact hlast j hlt' hj'
      · exact absurd hj' hmem
  · rw [hlookup] at hc
    split at hc
    · cases hc
    · next hmem =>
      rcases Nat.lt_succ_iff_lt_or_eq.mp hj with hlt | rfl
      · exact h.unnoted c hc j hlt
      · exact hmem

/-- **The chain rule from a height on.** -/
theorem validateNRDKernelHistory_from (hchain : KernelChain headers kernels) {f : KernelFiles}
    (hf : f.dataFile = kernels) {getHeader : ℕ → Option BlockHeader} {total m : ℕ}
    (hget : ∀ j < i + m, getHeader j = headers[j]?)
    (htotal : ∀ j < i + m, numKernelsAt headers j ≤ total)
    (hlen : i + m ≤ headers.length)
    (hpositions : LastHeights (entriesOf headers kernels) i positions) :
    TxHashSetValidator.validateNRDKernelHistory getHeader f total
        (List.range' i m) (firstKernel headers i) positions = true ↔
      ∀ j, i ≤ j → j < i + m → NoRecentDuplicate (entriesOf headers kernels) j := by
  induction m generalizing i positions with
  | zero =>
    refine ⟨fun _ j h1 h2 => by omega, fun _ => ?_⟩
    rfl
  | succ m ih =>
    have hi : i < headers.length := by omega
    have hheader := List.getElem?_eq_getElem hi
    have hcount := numKernelsAt_eq hheader
    have hfirst := hchain.firstKernel_le hi
    have hkernels : firstKernel headers i + (numKernelsAt headers i - firstKernel headers i) ≤
        f.dataFile.length := by
      rw [hf]
      have := hchain.numKernelsAt_le hi
      omega
    have hbounds : ¬(numKernelsAt headers i < firstKernel headers i ∨
        total < numKernelsAt headers i) := by
      have := htotal i (by omega)
      omega
    -- The loop over the kernels of this height succeeds when the block is valid.
    have hvalid : ∀ positions', TxHashSetValidator.nrdKernelHistory f i
        (List.range' (firstKernel headers i) (numKernelsAt headers i - firstKernel headers i))
        positions = some positions' ↔
        positions' = ((entriesOf headers kernels i).map fun e => (e.1, i)).reverse ++ positions ∧
          NoRecentDuplicate (entriesOf headers kernels) i := by
      intro positions'
      rw [nrdKernelHistory_eq_some_iff hkernels, hf]
      refine and_congr_right fun _ => ?_
      constructor
      · rintro ⟨hrange, hnodup, hlast⟩
        exact ⟨hrange, hnodup, fun e he => (hpositions.apart_iff e).mp (hlast e he)⟩
      · rintro ⟨hrange, hnodup, hapart⟩
        exact ⟨hrange, hnodup, fun e he => (hpositions.apart_iff e).mpr (hapart e he)⟩
    rw [List.range'_succ, TxHashSetValidator.validateNRDKernelHistory,
      hget i (by omega), hheader]
    dsimp only
    rw [← hcount, if_neg hbounds]
    rcases hrun : TxHashSetValidator.nrdKernelHistory f i
      (List.range' (firstKernel headers i) (numKernelsAt headers i - firstKernel headers i))
      positions with _ | positions'
    · refine ⟨fun h => (by cases h), fun hall => ?_⟩
      have := (hvalid _).mpr ⟨rfl, hall i le_rfl (by omega)⟩
      rw [hrun] at this
      cases this
    · obtain ⟨rfl, hthis⟩ := (hvalid positions').mp hrun
      dsimp only
      rw [show numKernelsAt headers i = firstKernel headers (i + 1) from rfl,
        ih (fun j hj => hget j (by omega)) (fun j hj => htotal j (by omega)) (by omega)
          hpositions.next]
      constructor
      · intro hall j h1 h2
        rcases h1.eq_or_lt with rfl | hlt
        · exact hthis
        · exact hall j hlt (by omega)
      · intro hall j h1 h2
        exact hall j (by omega) (by omega)

/-- **The chain rule** checks every block. -/
theorem validateNRDKernelHistory_iff (hchain : KernelChain headers kernels) {f : KernelFiles}
    (hf : f.dataFile = kernels) {getHeader : ℕ → Option BlockHeader} {n : ℕ}
    (hget : ∀ j ≤ n, getHeader j = headers[j]?) (hlen : n < headers.length) :
    TxHashSetValidator.validateNRDKernelHistory getHeader f (numKernelsAt headers n)
        (List.range (n + 1)) 0 [] = true ↔
      ∀ j ≤ n, NoRecentDuplicate (entriesOf headers kernels) j := by
  have hnone : LastHeights (entriesOf headers kernels) 0 [] :=
    ⟨fun c h hh => (by cases hh), fun c _ j hj => (by omega)⟩
  have hfrom := validateNRDKernelHistory_from (m := n + 1) hchain hf
    (fun j hj => hget j (by omega))
    (fun j hj => hchain.numKernelsAt_mono (by omega : j ≤ n) hlen) (by omega) hnone
  rw [firstKernel] at hfrom
  rw [List.range_eq_range', hfrom]
  constructor
  · intro hall j hj
    exact hall j (Nat.zero_le j) (by omega)
  · intro hall j _ hj
    exact hall j (by omega)

/-! ### The block rule -/

section BlockRule

variable {G : Global}

/-- The headers are in the database under their hashes, and each names the one before. -/
structure Stored (G : Global) (db : BlockDB) (headers : List BlockHeader) : Prop where
  /-- Each header is there. -/
  stored : ∀ h ∈ headers, db.getBlockHeader (h.getHash G) = some h
  /-- Each header names the one before. -/
  linked : headers.IsChain fun a b => b.previousHash = a.getHash G

/-- **The walk back** finds the headers of the chain. -/
theorem headersBack_eq {db : BlockDB} (hstored : Stored G db headers)
    (hheights : ∀ (i : ℕ) (h : BlockHeader), headers[i]? = some h → h.getHeight = i) {n e : ℕ}
    (hn : n ≤ e) (he : headers[e]? = some header) (hs : List BlockHeader) :
    TxHashSet.headersBack db n e (header.getHash G) hs =
      some ((headers.drop (e - n)).take (n + 1) ++ hs) := by
  obtain ⟨hlt, heq⟩ := List.getElem?_eq_some_iff.mp he
  have hfound := hstored.stored header (List.mem_of_getElem? he)
  have hheight := hheights e header he
  induction n generalizing e header hs with
  | zero =>
    rw [TxHashSet.headersBack, hfound]
    dsimp only
    rw [if_neg (not_not.mpr hheight), Nat.sub_zero, List.drop_eq_getElem_cons hlt, heq]
    rfl
  | succ n ih =>
    obtain ⟨e, rfl⟩ : ∃ k, e = k + 1 := ⟨e - 1, by omega⟩
    have hprev : headers[e]? = some headers[e] := List.getElem?_eq_getElem (by omega)
    have hlink := List.isChain_iff_getElem.mp hstored.linked e hlt
    rw [TxHashSet.headersBack, hfound]
    dsimp only
    rw [if_neg (not_not.mpr hheight), Nat.add_sub_cancel, ← heq, hlink,
      ih (by omega) hprev _ (by omega) rfl (hstored.stored _ (List.mem_of_getElem? hprev))
        (hheights e _ hprev), Nat.add_sub_add_right]
    -- The header in front of the rest is the last one of the longer piece.
    have hlast : ((headers.drop (e - n)).take (n + 1 + 1)) =
        (headers.drop (e - n)).take (n + 1) ++ [headers[e + 1]] := by
      rw [List.take_add_one, List.getElem?_drop, show e - n + (n + 1) = e + 1 by omega,
        List.getElem?_eq_getElem hlt]
      rfl
    rw [hlast, List.append_assoc]
    rfl

/-- **The kernels of one header**: none of them repeats an excess of the block too soon. -/
theorem nrdKernelsValid_iff {f : KernelFiles} {found : List (Commitment × ℕ)}
    (hnodup : (found.map Prod.fst).Nodup) {distance first last : ℕ}
    (hlen : last ≤ f.dataFile.length) (hle : first ≤ last) :
    TxHashSet.nrdKernelsValid f found distance first last = true ↔
      ∀ e ∈ found, e.1 ∈ (nrdEntries (slice f.dataFile first (last - first))).map Prod.fst →
        e.2 ≤ distance := by
  obtain ⟨n, rfl⟩ := Nat.exists_eq_add_of_le hle
  rw [TxHashSet.nrdKernelsValid, Nat.add_sub_cancel_left]
  clear hle
  induction n generalizing first with
  | zero => simp [slice, nrdEntries]
  | succ n ih =>
    obtain ⟨k, hk, hslice⟩ := slice_succ (show first + (n + 1) ≤ f.dataFile.length from hlen)
    rw [List.range'_succ, List.all_cons, Bool.and_eq_true, ih (by omega), hslice,
      KernelFiles.getKernelAt, hk]
    dsimp only
    by_cases hnrd : k.features = .noRecentDuplicate
    · rw [nrdEntries_cons_of_eq hnrd]
      simp only [List.map_cons, List.mem_cons, hnrd, ne_eq, not_true_eq_false, decide_false,
        Bool.false_or]
      split
      rotate_left
      · next hfind =>
        have hne : ∀ e ∈ found, e.1 ≠ k.excessCommitment := fun e he => by
          simpa using List.find?_eq_none.mp hfind e he
        constructor
        · rintro ⟨-, hall⟩ e he (heq | hin)
          · exact absurd heq (hne e he)
          · exact hall e he hin
        · intro hall
          exact ⟨rfl, fun e he hin => hall e he (.inr hin)⟩
      · next c r hfind =>
        -- The entry that is found is the only one with its excess.
        have hmem := List.mem_of_find?_eq_some hfind
        have hc : c = k.excessCommitment := by simpa using List.find?_some hfind
        have hunique : ∀ e ∈ found, e.1 = k.excessCommitment → e = (c, r) := fun e he heq =>
          List.inj_on_of_nodup_map hnodup he hmem (heq.trans hc.symm)
        constructor
        · rintro ⟨hr, hall⟩ e he (heq | hin)
          · rw [hunique e he heq]
            exact of_decide_eq_true hr
          · exact hall e he hin
        · intro hall
          exact ⟨decide_eq_true (hall _ hmem (.inl hc)), fun e he hin => hall e he (.inr hin)⟩
    · rw [nrdEntries_cons_of_ne hnrd]
      simp [hnrd]

/-- **The scan over the headers** from a height on. -/
theorem nrdHeadersValid_iff (hchain : KernelChain headers kernels) {f : KernelFiles} {h n : ℕ}
    (hf : ∀ i, i < h + n → blockKernels headers f.dataFile i = blockKernels headers kernels i)
    (henough : ∀ i, i < h + n → numKernelsAt headers i ≤ f.dataFile.length)
    {found : List (Commitment × ℕ)} (hnodup : (found.map Prod.fst).Nodup) (currentHeight : ℕ)
    (hlen : h + n ≤ headers.length) :
    TxHashSet.nrdHeadersValid f found currentHeight (firstKernel headers h)
        ((headers.drop h).take n) = true ↔
      ∀ j, h ≤ j → j < h + n → ∀ e ∈ found,
        e.1 ∈ (entriesOf headers kernels j).map Prod.fst → e.2 ≤ currentHeight - j := by
  induction n generalizing h with
  | zero =>
    rw [List.take_zero, TxHashSet.nrdHeadersValid]
    exact ⟨fun _ j h1 h2 => by omega, fun _ => rfl⟩
  | succ n ih =>
    have hh : h < headers.length := by omega
    have hget := List.getElem?_eq_getElem hh
    have hcount := numKernelsAt_eq hget
    have hfirst := hchain.firstKernel_le hh
    have hentries := hf h (by omega)
    rw [blockKernels] at hentries
    rw [List.drop_eq_getElem_cons hh, List.take_succ_cons, TxHashSet.nrdHeadersValid,
      hchain.heights h _ hget, ← hcount, Bool.and_eq_true, Bool.and_eq_true,
      decide_eq_true_iff, nrdKernelsValid_iff hnodup (henough h (by omega)) hfirst, hentries,
      show numKernelsAt headers h = firstKernel headers (h + 1) from rfl,
      ih (fun i hi => hf i (by omega)) (fun i hi => henough i (by omega)) (by omega)]
    constructor
    · rintro ⟨⟨-, h1⟩, h2⟩ j hj hj'
      rcases hj.eq_or_lt with rfl | hlt
      · exact h1
      · exact h2 j hlt (by omega)
    · intro hall
      exact ⟨⟨hfirst, hall h le_rfl (by omega)⟩, fun j hj hj' => hall j (by omega) (by omega)⟩

theorem slice_of_prefix {ks : List TransactionKernel} (h : ks <+: kernels) {first n : ℕ}
    (hlen : first + n ≤ ks.length) : slice ks first n = slice kernels first n := by
  obtain ⟨rest, rfl⟩ := h
  rw [slice, slice, List.drop_append_of_le_length (by omega),
    List.take_append_of_le_length (by rw [List.length_drop]; omega)]

theorem le_foldl_max {l : List ℕ} {a b : ℕ} (h : a ≤ b ∨ a ∈ l) : a ≤ l.foldl max b := by
  induction l generalizing b with
  | nil => simpa using h
  | cons c l ih =>
    rw [List.foldl_cons]
    refine ih ?_
    rcases h with h | h
    · exact .inl (h.trans (le_max_left b c))
    · rcases List.mem_cons.mp h with rfl | h
      · exact .inl (le_max_right b _)
      · exact .inr h

/-- A block of the chain and the hash set it is checked on. The set has the kernels of the
blocks before at least. -/
structure Replays (headers : List BlockHeader) (kernels : List TransactionKernel) (i : ℕ)
    (t : TxHashSet) (block : FullBlock) : Prop where
  /-- The block has the header of its height … -/
  header : headers[i]? = some block.header
  /-- … and its kernels. -/
  body : block.body.kernels = blockKernels headers kernels i
  /-- The set has kernels of the chain … -/
  isPrefix : t.kernelMMR.current.dataFile <+: kernels
  /-- … and those of the blocks before. -/
  enough : firstKernel headers i ≤ t.kernelMMR.current.dataFile.length

/-- **The block rule** checks a block. -/
theorem validateNRDKernelRules_iff (hchain : KernelChain headers kernels) {db : BlockDB}
    (hstored : Stored G db headers) (hi : 0 < i) {t : TxHashSet} {block : FullBlock}
    (h : Replays headers kernels i t block) :
    t.validateNRDKernelRules db block = true ↔
      NoRecentDuplicate (entriesOf headers kernels) i := by
  obtain ⟨hlt, heq⟩ := List.getElem?_eq_some_iff.mp h.header
  have hheight : block.getHeight = i := hchain.heights i _ h.header
  obtain ⟨e, rfl⟩ : ∃ e, i = e + 1 := ⟨i - 1, by omega⟩
  have hprev : headers[e]? = some headers[e] := List.getElem?_eq_getElem (by omega)
  have hlink : block.getPreviousHash = headers[e].getHash G := by
    have := List.isChain_iff_getElem.mp hstored.linked e hlt
    rw [heq] at this
    exact this
  have hback := fun n (hn : n ≤ e) => headersBack_eq hstored hchain.heights hn hprev []
  -- The kernels of the blocks before are read from the set.
  have henough : ∀ j, j < e + 1 → numKernelsAt headers j ≤ t.kernelMMR.current.dataFile.length :=
    fun j hj => (hchain.numKernelsAt_mono (by omega : j ≤ e) (by omega)).trans h.enough
  have hkernels : ∀ j, j < e + 1 → blockKernels headers t.kernelMMR.current.dataFile j =
      blockKernels headers kernels j := by
    intro j hj
    have := hchain.firstKernel_le (i := j) (by omega)
    have := henough j hj
    exact slice_of_prefix h.isPrefix (by omega)
  rw [TxHashSet.validateNRDKernelRules]
  rcases hfound : TxHashSet.blockNRDKernels block.body.kernels [] with _ | found
  · refine ⟨fun h => (by cases h), fun hvalid => ?_⟩
    have hsome : TxHashSet.blockNRDKernels (blockKernels headers kernels (e + 1)) [] =
        some (entriesOf headers kernels (e + 1)) :=
      blockNRDKernels_eq_some_iff.mpr ⟨rfl, hvalid.range, hvalid.nodup, by simp⟩
    rw [← h.body, hfound] at hsome
    cases hsome
  · obtain ⟨hentries, hrange, hnodup, -⟩ := blockNRDKernels_eq_some_iff.mp hfound
    rw [List.nil_append, h.body] at hentries
    rw [h.body] at hrange hnodup
    change found = entriesOf headers kernels (e + 1) at hentries
    change ∀ e' ∈ entriesOf headers kernels (e + 1), _ at hrange
    change ((entriesOf headers kernels (e + 1)).map Prod.fst).Nodup at hnodup
    rw [← hentries] at hrange hnodup
    -- What is left of the rule is the distance to the blocks before.
    have hrule : NoRecentDuplicate (entriesOf headers kernels) (e + 1) ↔
        ∀ j, j < e + 1 → ∀ e' ∈ found, e'.1 ∈ (entriesOf headers kernels j).map Prod.fst →
          e'.2 ≤ e + 1 - j := by
      constructor
      · rintro ⟨-, -, hapart⟩ j hj e' he' hin
        rw [hentries] at he'
        exact hapart e' he' j hj hin
      · intro hall
        rw [hentries] at hall hrange hnodup
        exact ⟨hrange, hnodup, fun e' he' j hj hin => hall j hj e' he' hin⟩
    rw [hrule]
    rcases found with _ | ⟨entry, found⟩
    · exact ⟨fun _ j _ e' he' => (by cases he'), fun _ => rfl⟩
    · have hmax : ∀ e' ∈ entry :: found,
          e'.2 ≤ ((entry :: found).map Prod.snd).foldl max 0 := fun e' he' =>
        le_foldl_max (.inr (List.mem_map_of_mem he'))
      have hpos : 0 < ((entry :: found).map Prod.snd).foldl max 0 :=
        (hrange entry List.mem_cons_self).1.trans_le (hmax entry List.mem_cons_self)
      dsimp only
      generalize ((entry :: found).map Prod.snd).foldl max 0 = maxRelativeHeight at hmax hpos ⊢
      rw [hheight, hlink, if_neg (Nat.succ_ne_zero e), Nat.add_sub_cancel]
      by_cases hwindow : maxRelativeHeight < e + 1
      · -- The window starts behind the first block, and what is before it is far enough.
        obtain ⟨w, rfl⟩ : ∃ w, maxRelativeHeight = w + 1 := ⟨maxRelativeHeight - 1, by omega⟩
        have hscan := nrdHeadersValid_iff (f := t.kernelMMR.current) (h := e - w + 1) (n := w)
          hchain (fun j hj => hkernels j (by omega)) (fun j hj => henough j (by omega)) hnodup
          (e + 1) (by omega)
        rw [if_pos hwindow, show e - (e + 1 - (w + 1) + 1 - 1) = w by omega, hback w (by omega)]
        dsimp only
        rw [if_pos (Nat.succ_pos _), List.append_nil,
          List.drop_eq_getElem_cons (by omega : e - w < headers.length), List.take_succ_cons]
        dsimp only
        rw [← numKernelsAt_eq (List.getElem?_eq_getElem (by omega : e - w < headers.length)),
          show numKernelsAt headers (e - w) = firstKernel headers (e - w + 1) from rfl, hscan]
        constructor
        · intro hall j hj e' he' hin
          by_cases hnear : e - w + 1 ≤ j
          · exact hall j hnear (by omega) e' he' hin
          · have := hmax e' he'
            omega
        · intro hall j _ hj
          exact hall j (by omega)
      · have hscan := nrdHeadersValid_iff (f := t.kernelMMR.current) (h := 0) (n := e + 1)
          hchain (fun j hj => hkernels j (by omega)) (fun j hj => henough j (by omega)) hnodup
          (e + 1) (by omega)
        rw [if_neg hwindow, Nat.zero_sub, Nat.sub_zero, hback e le_rfl]
        dsimp only
        rw [firstKernel] at hscan
        rw [if_neg (Nat.lt_irrefl 0), List.append_nil, Nat.sub_self, hscan]
        constructor
        · intro hall j hj
          exact hall j (Nat.zero_le j) (by omega)
        · intro hall j _ hj
          exact hall j (by omega)

/-- A block alone satisfies the rule when its kernels are valid. -/
theorem noRecentDuplicate_zero_iff :
    NoRecentDuplicate (entriesOf headers kernels) 0 ↔
      (TxHashSet.blockNRDKernels (blockKernels headers kernels 0) []).isSome := by
  rw [Option.isSome_iff_exists]
  constructor
  · rintro ⟨hrange, hnodup, -⟩
    exact ⟨_, blockNRDKernels_eq_some_iff.mpr ⟨rfl, hrange, hnodup, by simp⟩⟩
  · rintro ⟨found, hfound⟩
    obtain ⟨-, hrange, hnodup, -⟩ := blockNRDKernels_eq_some_iff.mp hfound
    exact ⟨hrange, hnodup, fun e _ j hj => absurd hj (Nat.not_lt_zero j)⟩

/-- **The two rules agree.** The chain rule accepts a chain up to a header when the kernels of
its first block are valid and the block rule accepts every later block, in order. -/
theorem history_iff_rules (hchain : KernelChain headers kernels) {db : BlockDB}
    (hstored : Stored G db headers) {f : KernelFiles} (hf : f.dataFile = kernels)
    {getHeader : ℕ → Option BlockHeader} {n : ℕ} (hn : headers[n]? = some header)
    (hget : ∀ j ≤ n, getHeader j = headers[j]?) {sets : ℕ → TxHashSet} {blocks : ℕ → FullBlock}
    (hblocks : ∀ i ≤ n, Replays headers kernels i (sets i) (blocks i)) :
    TxHashSetValidator.validateNRDKernelHistory getHeader f header.getNumKernels
        (List.range (n + 1)) 0 [] = true ↔
      (TxHashSet.blockNRDKernels (blocks 0).body.kernels []).isSome ∧
        ∀ i, 0 < i → i ≤ n → (sets i).validateNRDKernelRules db (blocks i) = true := by
  obtain ⟨hlt, -⟩ := List.getElem?_eq_some_iff.mp hn
  rw [← numKernelsAt_eq hn, validateNRDKernelHistory_iff hchain hf hget hlt,
    (hblocks 0 (Nat.zero_le n)).body, ← noRecentDuplicate_zero_iff]
  constructor
  · intro hall
    refine ⟨hall 0 (Nat.zero_le n), fun i hi hin => ?_⟩
    exact (validateNRDKernelRules_iff hchain hstored hi (hblocks i hin)).mpr (hall i hin)
  · rintro ⟨hzero, hrules⟩ j hj
    rcases Nat.eq_zero_or_pos j with rfl | hpos
    · exact hzero
    · exact (validateNRDKernelRules_iff hchain hstored hpos (hblocks j hj)).mp (hrules j hpos hj)

end BlockRule

/-! ### A small chain

Three blocks with a kernel each. The first and the last have the same excess, and the last
one states the distance of the two as its relative height. -/

section SmallHistory

open SmallNet

/-- A kernel without recent duplicate. -/
def nrdKernel (relativeHeight : UInt64) : TransactionKernel :=
  { coinbaseKernel 1 with features := .noRecentDuplicate, lockHeight := relativeHeight }

/-- The three kernels. -/
def smallKernels : List TransactionKernel :=
  [nrdKernel 1, coinbaseKernel 2, nrdKernel 2]

/-- The header of a height that states a size and follows another one. -/
def smallHeader (height kernelMMRSize : UInt64) (previousHash : Hash) : BlockHeader :=
  { genesisHeader with
    height := height
    kernelMMRSize := kernelMMRSize
    previousHash := previousHash
    proofOfWork := longProofOfWork height.toNat }

/-- The second header. -/
def smallHeader₁ : BlockHeader :=
  smallHeader 1 3 (genesisHeader.getHash (smallNet .automatedTesting))

/-- The third header. -/
def smallHeader₂ : BlockHeader :=
  smallHeader 2 4 (smallHeader₁.getHash (smallNet .automatedTesting))

/-- The three headers. -/
def smallHeaders : List BlockHeader :=
  [genesisHeader, smallHeader₁, smallHeader₂]

/-- A database with the three headers. -/
def smallDB : BlockDB where
  tables := Batch.of
    { header := fun hash =>
        smallHeaders.find? fun h => h.getHash (smallNet .automatedTesting) = hash
      block := fun _ => none
      blockSums := fun _ => none
      outputPos := fun _ => none
      spentOutputs := fun _ => none }
  headersCache := []
  uncommitted := []

/-- The hash set with the three kernels. -/
def smallSet : TxHashSet where
  kernelMMR := Batch.of ⟨[], smallKernels⟩
  outputPMMR := Batch.of ⟨[], fun _ => false, .empty, []⟩
  rangeProofPMMR := Batch.of ⟨[], fun _ => false, .empty, []⟩
  blockHeader := genesisHeader
  blockHeaderBackup := genesisHeader

/-- The three blocks. -/
def smallBlock (i : ℕ) : FullBlock :=
  ⟨smallHeaders.getD i genesisHeader, ⟨[], [], blockKernels smallHeaders smallKernels i⟩⟩

theorem kernelChain_small : KernelChain smallHeaders smallKernels where
  heights := by
    intro i h hi
    have hlt := (List.getElem?_eq_some_iff.mp hi).1
    have hcases : i = 0 ∨ i = 1 ∨ i = 2 := by
      change i < 3 at hlt
      omega
    rcases hcases with rfl | rfl | rfl
    · cases hi
      rfl
    · cases hi
      rfl
    · cases hi
      rfl
  counts := by decide
  enough := by decide

theorem stored_small : Stored (smallNet .automatedTesting) smallDB smallHeaders where
  stored := by decide +kernel
  linked := by decide +kernel

theorem replays_small {i : ℕ} (hi : i ≤ 2) :
    Replays smallHeaders smallKernels i smallSet (smallBlock i) where
  header := by
    have hlt : i < smallHeaders.length := Nat.lt_succ_of_le hi
    rw [smallBlock, List.getD_eq_getElem _ _ hlt, List.getElem?_eq_getElem hlt]
  body := rfl
  isPrefix := List.prefix_rfl
  enough := by
    have hle := kernelChain_small.firstKernel_le (i := i) (Nat.lt_succ_of_le hi)
    exact hle.trans (kernelChain_small.numKernelsAt_le (Nat.lt_succ_of_le hi))

/-- Both rules accept the small chain. -/
theorem history_iff_rules_small :
    TxHashSetValidator.validateNRDKernelHistory (fun h => smallHeaders[h]?)
        smallSet.kernelMMR.current smallHeader₂.getNumKernels (List.range 3) 0 [] = true ∧
      ∀ i, 0 < i → i ≤ 2 → smallSet.validateNRDKernelRules smallDB (smallBlock i) = true := by
  have haccept : TxHashSetValidator.validateNRDKernelHistory (fun h => smallHeaders[h]?)
      smallSet.kernelMMR.current smallHeader₂.getNumKernels (List.range 3) 0 [] = true := by
    decide +kernel
  have hrules := (history_iff_rules kernelChain_small stored_small rfl rfl (fun _ _ => rfl)
    fun i (hi : i ≤ 2) => replays_small hi).mp haccept
  exact ⟨haccept, hrules.2⟩

end SmallHistory

end NRDRules

end GrinPlusPlus
