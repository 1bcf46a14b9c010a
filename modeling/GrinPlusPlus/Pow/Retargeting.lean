import GrinPlusPlus.Core.SmallNet
import GrinPlusPlus.Lib.Exec
import GrinPlusPlus.Lib.Retarget
import GrinPlusPlus.Pow.PowValidator
import Mathlib.Algebra.Order.BigOperators.Group.List

/-!
# The difficulty of the next header, in exact arithmetic

`DifficultyCalculator` computes with 64 bits and unsigned differences. As long as nothing wraps,
its two rules are those of `Retarget` over the natural numbers, and what is known about these
holds of it.

* From version 5 on, it looks at the last two headers only
  (`GrinPlusPlus.DifficultyCalculator.nextWTEMA_eq`).
* Before, it looks at a window of 60 headers and the one in front of them. A chain that is too
  short is continued backwards with simulated headers, which repeat the difficulty of the
  *newest* one; what comes out is always a window in the right order
  (`GrinPlusPlus.DifficultyCalculator.DMAInput.load`). Everything that is computed from a window
  is exact but for one product, of the sum of the difficulties and the block time
  (`GrinPlusPlus.DifficultyCalculator.Window.nextDMA_eq`); it fits when the window is full
  (`GrinPlusPlus.DifficultyCalculator.Window.fits_of_long`), and may wrap when it is not.
-/

namespace GrinPlusPlus

namespace DifficultyCalculator

/-! ### 64 bits that do not wrap -/

theorem toNat_max (a b : UInt64) : (max a b).toNat = max a.toNat b.toNat := by
  rcases le_total a.toNat b.toNat with h | h
  · rw [max_eq_right h]
    show (if a ≤ b then b else a).toNat = _
    rw [if_pos (UInt64.le_iff_toNat_le.2 h)]
  · rw [max_eq_left h]
    show (if a ≤ b then b else a).toNat = _
    split_ifs with hab
    · exact le_antisymm h (UInt64.le_iff_toNat_le.1 hab)
    · rfl

theorem toNat_min (a b : UInt64) : (min a b).toNat = min a.toNat b.toNat := by
  show (if a ≤ b then a else b).toNat = _
  split_ifs with h
  · exact (min_eq_left (UInt64.le_iff_toNat_le.1 h)).symm
  · refine (min_eq_right ?_).symm
    exact (Nat.le_total _ _).resolve_left fun hle => h (UInt64.le_iff_toNat_le.2 hle)

theorem toNat_mul_of_lt {a b : UInt64} (h : a.toNat * b.toNat < 2 ^ 64) :
    (a * b).toNat = a.toNat * b.toNat := by
  rw [UInt64.toNat_mul, Nat.mod_eq_of_lt h]

theorem toNat_add_of_lt {a b : UInt64} (h : a.toNat + b.toNat < 2 ^ 64) :
    (a + b).toNat = a.toNat + b.toNat := by
  rw [UInt64.toNat_add, Nat.mod_eq_of_lt h]

/-! ### The weighted exponential moving average -/

section WTEMA

/-- The time between two headers, in seconds. -/
def blockTime (last prev : BlockHeader) : ℕ :=
  (last.getTimestamp - prev.getTimestamp).toNat

/-- The difficulty that a header added. -/
def lastDifficulty (last prev : BlockHeader) : UInt64 :=
  last.totalDifficulty - prev.totalDifficulty

/-- **What `NextWTEMA` starts from**: it finds two headers, whose times are not negative and
strictly increasing, and the difficulty of the last one leaves room for the factor. -/
structure WTEMAInput (lookup : HeaderLookup) (header last prev : BlockHeader) : Prop where
  /-- The last header is known. -/
  lookup_last : lookup header.previousHash = some last
  /-- So is the one before it. -/
  lookup_prev : lookup last.previousHash = some prev
  /-- The times are not negative. -/
  nonneg : 0 ≤ prev.getTimestamp
  /-- The times are strictly increasing. -/
  increasing : prev.getTimestamp < last.getTimestamp
  /-- The product of the difficulty and the half-life fits in 64 bits. -/
  fits : (lastDifficulty last prev).toNat * 14400 < 2 ^ 64

/-- **No operation of `NextWTEMA` wraps**, and it does not divide by zero. -/
structure WTEMAExact (last prev : BlockHeader) : Prop where
  /-- The signed difference of the times. -/
  blockTime : (last.timestamp - prev.timestamp).toInt = last.getTimestamp - prev.getTimestamp
  /-- Its conversion to an unsigned number. -/
  unsigned : ((last.timestamp - prev.timestamp).toUInt64.toNat : ℤ) =
    last.getTimestamp - prev.getTimestamp
  /-- The difference of the difficulties, when they are in order. -/
  difficulty : prev.getTotalDifficulty ≤ last.getTotalDifficulty →
    (lastDifficulty last prev).toNat = last.getTotalDifficulty - prev.getTotalDifficulty
  /-- The product. -/
  product : (lastDifficulty last prev * Consensus.wtemaHalfLife).toNat =
    (lastDifficulty last prev).toNat * 14400
  /-- The divisor. -/
  divisor : (Consensus.wtemaHalfLife - Consensus.blockTimeSec +
    (last.timestamp - prev.timestamp).toUInt64).toNat =
      14340 + DifficultyCalculator.blockTime last prev
  /-- It is not zero. -/
  divisor_ne_zero : Consensus.wtemaHalfLife - Consensus.blockTimeSec +
    (last.timestamp - prev.timestamp).toUInt64 ≠ 0

variable {lookup : HeaderLookup} {header last prev : BlockHeader}

namespace WTEMAInput

theorem blockTime_lt (h : WTEMAInput lookup header last prev) : blockTime last prev < 2 ^ 63 := by
  have hnonneg := h.nonneg
  have hlast : last.getTimestamp < 2 ^ 63 := last.timestamp.toInt_lt
  rw [blockTime]
  omega

theorem toInt_sub (h : WTEMAInput lookup header last prev) :
    (last.timestamp - prev.timestamp).toInt = last.getTimestamp - prev.getTimestamp :=
  Int64.toInt_sub_of_le _ _ (Int64.le_iff_toInt_le.2 h.nonneg)
    (Int64.le_iff_toInt_le.2 h.increasing.le)

theorem toNat_sub (h : WTEMAInput lookup header last prev) :
    (last.timestamp - prev.timestamp).toUInt64.toNat = blockTime last prev := by
  have hpos : (0 : Int64) ≤ last.timestamp - prev.timestamp := by
    rw [Int64.le_iff_toInt_le, h.toInt_sub]
    exact Int.sub_nonneg.2 h.increasing.le
  rw [Int64.toNat_toUInt64_of_le hpos, Int64.toNatClampNeg, h.toInt_sub, blockTime]

theorem toNat_divisor (h : WTEMAInput lookup header last prev) :
    (Consensus.wtemaHalfLife - Consensus.blockTimeSec +
      (last.timestamp - prev.timestamp).toUInt64).toNat = 14340 + blockTime last prev := by
  have hlt := h.blockTime_lt
  have hconst : (Consensus.wtemaHalfLife - Consensus.blockTimeSec).toNat = 14340 := by decide
  rw [toNat_add_of_lt, hconst, h.toNat_sub]
  rw [hconst, h.toNat_sub]
  omega

theorem exact (h : WTEMAInput lookup header last prev) : WTEMAExact last prev where
  blockTime := h.toInt_sub
  unsigned := by
    rw [h.toNat_sub, DifficultyCalculator.blockTime]
    exact Int.toNat_of_nonneg (Int.sub_nonneg.2 h.increasing.le)
  difficulty hle := UInt64.toNat_sub_of_le _ _ (UInt64.le_iff_toNat_le.2 hle)
  product := toNat_mul_of_lt h.fits
  divisor := h.toNat_divisor
  divisor_ne_zero hzero := by
    have hnat := h.toNat_divisor
    rw [hzero, UInt64.toNat_zero] at hnat
    omega

end WTEMAInput

/-- In exact arithmetic, the rule is the exponential moving average. -/
theorem nextWTEMA_eq (env : Environment) (h : WTEMAInput lookup header last prev) :
    ∃ info, nextWTEMA env lookup header = .ok info ∧
      info.difficulty.toNat =
        Retarget.wtema 14400 60 (Consensus.minWtemaGraphWeight env).toNat
          (lastDifficulty last prev).toNat (blockTime last prev) := by
  refine ⟨HeaderInfo.fromDiffAndScaling
    (max (Consensus.minWtemaGraphWeight env)
      (lastDifficulty last prev * Consensus.wtemaHalfLife /
        (Consensus.wtemaHalfLife - Consensus.blockTimeSec +
          (last.timestamp - prev.timestamp).toUInt64))) 0, ?_, ?_⟩
  · simp only [nextWTEMA, h.lookup_last, h.lookup_prev, orThrow, Exec.ok_bind]
    rw [if_neg h.exact.divisor_ne_zero]
    rfl
  · rw [HeaderInfo.fromDiffAndScaling, toNat_max, UInt64.toNat_div, h.exact.product,
      h.exact.divisor]
    rfl

/-- **The rule is safe and has the right sign**: nothing wraps, the result is at least the
minimum, a block on time keeps the difficulty, an early one raises it and a late one lowers it,
and less time or more difficulty never give less. -/
theorem nextWTEMA_safe (env : Environment) (h : WTEMAInput lookup header last prev) :
    WTEMAExact last prev ∧
    ∃ info, nextWTEMA env lookup header = .ok info ∧
      (Consensus.minWtemaGraphWeight env).toNat ≤ info.difficulty.toNat ∧
      ((Consensus.minWtemaGraphWeight env).toNat ≤ (lastDifficulty last prev).toNat →
        (blockTime last prev = 60 → info.difficulty = lastDifficulty last prev) ∧
        (blockTime last prev < 60 →
          (lastDifficulty last prev).toNat ≤ info.difficulty.toNat ∧
          (14400 ≤ (lastDifficulty last prev).toNat →
            (lastDifficulty last prev).toNat < info.difficulty.toNat)) ∧
        (60 < blockTime last prev →
          info.difficulty.toNat < (lastDifficulty last prev).toNat ∨
          info.difficulty = Consensus.minWtemaGraphWeight env)) ∧
      ∀ lookup' header' last' prev', WTEMAInput lookup' header' last' prev' →
        (lastDifficulty last prev).toNat ≤ (lastDifficulty last' prev').toNat →
        blockTime last' prev' ≤ blockTime last prev →
        ∃ info', nextWTEMA env lookup' header' = .ok info' ∧
          info.difficulty.toNat ≤ info'.difficulty.toNat := by
  obtain ⟨info, hinfo, hval⟩ := nextWTEMA_eq env h
  have hpos : 0 < 14400 - 60 + blockTime last prev := by omega
  refine ⟨h.exact, info, hinfo, ?_, fun hmin => ⟨?_, ?_, ?_⟩, ?_⟩
  · rw [hval]
    exact Retarget.le_atLeast
  · intro htime
    rw [htime, Retarget.wtema_goal (by decide) (by decide) hmin] at hval
    exact UInt64.toNat_inj.1 hval
  · intro htime
    rw [hval]
    exact ⟨Retarget.le_wtema_of_le (by decide) hpos htime.le,
      fun hdiff => Retarget.lt_wtema_of_lt (by decide) hpos htime hdiff⟩
  · intro htime
    rw [← UInt64.toNat_inj, hval]
    exact Retarget.wtema_of_lt (by decide) htime
  · intro lookup' header' last' prev' h' hdiff htime
    obtain ⟨info', hinfo', hval'⟩ := nextWTEMA_eq env h'
    refine ⟨info', hinfo', ?_⟩
    rw [hval, hval']
    exact Retarget.wtema_mono (by omega) hdiff htime

/-- A header of version 5 with a time, a difficulty and a previous hash. -/
def headerAt (timestamp : Int64) (totalDifficulty : UInt64) (previous : ℕ) : BlockHeader :=
  { SmallNet.genesisHeader with
    version := 5
    timestamp := timestamp
    totalDifficulty := totalDifficulty
    previousHash := ⟨previous⟩ }

/-- Two headers, a minute apart. -/
def minuteApart : HeaderLookup := fun hash =>
  if hash = ⟨2⟩ then some (headerAt 160 50000 1)
  else if hash = ⟨1⟩ then some (headerAt 100 30000 0)
  else none

/-- A minute later, the difficulty is what it was. -/
theorem nextWTEMA_safe_minuteApart :
    ∃ info, nextWTEMA .mainnet minuteApart (headerAt 220 0 2) = .ok info ∧
      info.difficulty = 20000 := by
  have hinput : WTEMAInput minuteApart (headerAt 220 0 2) (headerAt 160 50000 1)
      (headerAt 100 30000 0) :=
    { lookup_last := rfl
      lookup_prev := rfl
      nonneg := by decide
      increasing := by decide
      fits := by decide }
  obtain ⟨-, info, hinfo, -, hsign, -⟩ := nextWTEMA_safe .mainnet hinput
  exact ⟨info, hinfo, (hsign (by decide)).1 (by decide)⟩

end WTEMA

/-! ### The entries of a chain -/

section Entries

/-- **A chain of headers behind a header**, the newest first: each is found by the previous hash
of the one in front of it, and nothing is found behind the last. -/
def Linked (lookup : HeaderLookup) : BlockHeader → List BlockHeader → Prop
  | header, [] => lookup header.previousHash = none
  | header, h :: chain => lookup header.previousHash = some h ∧ Linked lookup h chain

/-- The entries of a chain: each with the difficulty it added to the header behind it. -/
def entries : List BlockHeader → List HeaderInfo
  | [] => []
  | h :: chain =>
    ⟨h.timestamp.toUInt64,
      match chain.head? with
      | some p => h.totalDifficulty - p.totalDifficulty
      | none => h.totalDifficulty,
      h.scalingDifficulty, h.proofOfWork.isSecondary⟩ :: entries chain

@[simp] theorem length_entries (chain : List BlockHeader) :
    (entries chain).length = chain.length := by
  induction chain with
  | nil => rfl
  | cons h chain ih => simp [entries, ih]

variable {lookup : HeaderLookup} {header : BlockHeader} {chain : List BlockHeader}

theorem Linked.lookup_eq (h : Linked lookup header chain) :
    lookup header.previousHash = chain.head? := by
  match chain, h with
  | [], h => exact h
  | _ :: _, h => exact h.1

/-- The loop of `LoadDifficultyData` reads the entries, up to the number it needs. -/
theorem Linked.load_eq (h : Linked lookup header chain) (n : ℕ) :
    DifficultyLoader.load lookup n (lookup header.previousHash) = (entries chain).take n := by
  induction chain generalizing header n with
  | nil =>
    rw [h.lookup_eq]
    cases n <;> rfl
  | cons b chain ih =>
    rw [h.1]
    match n with
    | 0 => rfl
    | n + 1 =>
      rw [DifficultyLoader.load, entries, List.take_succ_cons, ih h.2 n]
      congr 2
      have hlookup := h.2.lookup_eq
      cases hhead : chain.head? with
      | none => simp only [hlookup, hhead]
      | some p => simp only [hlookup, hhead]

/-- **What the moving average starts from**: a chain with times that are not negative, below
`2 ^ 62` and strictly increasing, total difficulties below `2 ^ 57` that are strictly increasing,
and scaling factors below `2 ^ 31`. -/
structure DMAInput (lookup : HeaderLookup) (header : BlockHeader) (chain : List BlockHeader) :
    Prop where
  /-- The headers are linked by their hashes. -/
  linked : Linked lookup header chain
  /-- There is one. -/
  nonempty : chain ≠ []
  /-- The times are not negative. -/
  nonneg : ∀ h ∈ chain, 0 ≤ h.getTimestamp
  /-- They are small. -/
  time_lt : ∀ h ∈ chain, h.getTimestamp < 2 ^ 62
  /-- The times are strictly increasing. -/
  times : chain.Pairwise fun h p => p.getTimestamp < h.getTimestamp
  /-- The difficulties are small. -/
  difficulty_lt : ∀ h ∈ chain, h.getTotalDifficulty < 2 ^ 57
  /-- They are strictly increasing. -/
  difficulties : chain.Pairwise fun h p => p.getTotalDifficulty < h.getTotalDifficulty
  /-- The scaling factors are small. -/
  scaling_lt : ∀ h ∈ chain, h.scalingDifficulty.toNat < 2 ^ 31

/-- An entry within the bounds. -/
structure Bounded (i : HeaderInfo) : Prop where
  /-- Its time. -/
  time_lt : i.timestamp.toNat < 2 ^ 62
  /-- Its difficulty. -/
  difficulty_lt : i.difficulty.toNat < 2 ^ 57
  /-- Its scaling factor. -/
  scaling_lt : i.secondaryScaling.toNat < 2 ^ 31

theorem toNat_toUInt64 {t : Int64} (h : 0 ≤ t.toInt) : (t.toUInt64.toNat : ℤ) = t.toInt := by
  rw [Int64.toNat_toUInt64_of_le (Int64.le_iff_toInt_le.2 h), Int64.toNatClampNeg]
  exact Int.toNat_of_nonneg h

/-- The difficulties of the entries add up to the total difficulty of the newest header. -/
theorem sum_entries {h : BlockHeader}
    (hinc : (h :: chain).Pairwise fun h p => p.getTotalDifficulty < h.getTotalDifficulty) :
    ((entries (h :: chain)).map fun i => i.difficulty.toNat).sum = h.getTotalDifficulty := by
  induction chain generalizing h with
  | nil => simp [entries, BlockHeader.getTotalDifficulty]
  | cons p chain ih =>
    obtain ⟨hlt, hrest⟩ := List.pairwise_cons.1 hinc
    have hle : p.totalDifficulty ≤ h.totalDifficulty :=
      UInt64.le_iff_toNat_le.2 (hlt p List.mem_cons_self).le
    rw [entries, List.map_cons, List.sum_cons, ih hrest]
    simp only [List.head?_cons, UInt64.toNat_sub_of_le _ _ hle]
    exact Nat.sub_add_cancel (hlt p List.mem_cons_self).le

theorem exists_of_mem_entries {i : HeaderInfo} (hi : i ∈ entries chain) :
    ∃ h ∈ chain, i.timestamp = h.timestamp.toUInt64 := by
  induction chain with
  | nil => simp [entries] at hi
  | cons h chain ih =>
    rw [entries, List.mem_cons] at hi
    rcases hi with rfl | hi
    · exact ⟨h, List.mem_cons_self, rfl⟩
    · obtain ⟨p, hp, htime⟩ := ih hi
      exact ⟨p, List.mem_cons_of_mem _ hp, htime⟩

/-- The entries of a chain, newest first: their times do not increase, and they are bounded. -/
theorem entries_pairwise (hnonneg : ∀ h ∈ chain, 0 ≤ h.getTimestamp)
    (htimes : chain.Pairwise fun h p => p.getTimestamp < h.getTimestamp) :
    (entries chain).Pairwise fun i j => j.timestamp.toNat ≤ i.timestamp.toNat := by
  induction chain with
  | nil => exact List.Pairwise.nil
  | cons h chain ih =>
    obtain ⟨hlt, hrest⟩ := List.pairwise_cons.1 htimes
    rw [List.forall_mem_cons] at hnonneg
    refine List.pairwise_cons.2 ⟨fun i hi => ?_, ih hnonneg.2 hrest⟩
    obtain ⟨p, hp, htime⟩ := exists_of_mem_entries hi
    have hh := toNat_toUInt64 hnonneg.1
    have hpt := toNat_toUInt64 (hnonneg.2 p hp)
    have := hlt p hp
    simp only [BlockHeader.getTimestamp] at this
    simp only [htime]
    omega

/-- The entries of a chain are bounded. -/
theorem DMAInput.bounded (h : DMAInput lookup header chain) :
    ∀ i ∈ entries chain, Bounded i := by
  obtain ⟨-, -, hnonneg, htime, -, hdiff, hinc, hscaling⟩ := h
  induction chain with
  | nil => simp [entries]
  | cons b chain ih =>
    rw [List.forall_mem_cons] at hnonneg htime hdiff hscaling
    obtain ⟨hlt, hrest⟩ := List.pairwise_cons.1 hinc
    rw [entries, List.forall_mem_cons]
    refine ⟨⟨?_, ?_, hscaling.1⟩, ih hnonneg.2 htime.2 hdiff.2 hrest hscaling.2⟩
    · have hb := toNat_toUInt64 hnonneg.1
      have := htime.1
      simp only [BlockHeader.getTimestamp] at this ⊢
      omega
    · -- a difference of total difficulties is no larger than the larger one
      refine lt_of_le_of_lt ?_ hdiff.1
      cases chain with
      | nil => exact le_rfl
      | cons p chain =>
        have hle := (hlt p List.mem_cons_self).le
        simp only [List.head?_cons,
          UInt64.toNat_sub_of_le _ _ (UInt64.le_iff_toNat_le.2 hle)]
        exact Nat.sub_le _ _

end Entries

/-! ### The simulated headers in front of a short chain -/

section Padding

variable {δ d : UInt64}

@[simp] theorem length_pad (n : ℕ) (ts : UInt64) :
    (DifficultyLoader.pad δ d n ts).length = n := by
  induction n generalizing ts with
  | zero => rfl
  | succ n ih => simp [DifficultyLoader.pad, ih]

theorem toNat_sub_min (ts δ : UInt64) :
    (ts - min ts δ).toNat = ts.toNat - min ts.toNat δ.toNat := by
  have hle : min ts δ ≤ ts := by
    rw [UInt64.le_iff_toNat_le, toNat_min]
    exact min_le_left _ _
  rw [UInt64.toNat_sub_of_le _ _ hle, toNat_min]

/-- A simulated header lies before the first one, with the difficulty of the newest. -/
theorem of_mem_pad {n : ℕ} {ts : UInt64} {i : HeaderInfo}
    (hi : i ∈ DifficultyLoader.pad δ d n ts) :
    i.timestamp.toNat ≤ ts.toNat ∧ i.difficulty = d ∧
      i.secondaryScaling = UInt32.ofNat Consensus.initialGraphWeight := by
  induction n generalizing ts with
  | zero => simp [DifficultyLoader.pad] at hi
  | succ n ih =>
    rw [DifficultyLoader.pad, List.mem_cons] at hi
    rcases hi with rfl | hi
    · exact ⟨(toNat_sub_min ts δ).trans_le (Nat.sub_le _ _), rfl, rfl⟩
    · obtain ⟨hts, hrest⟩ := ih hi
      exact ⟨hts.trans ((toNat_sub_min ts δ).trans_le (Nat.sub_le _ _)), hrest⟩

theorem pad_pairwise (n : ℕ) (ts : UInt64) :
    (DifficultyLoader.pad δ d n ts).Pairwise fun i j => j.timestamp.toNat ≤ i.timestamp.toNat := by
  induction n generalizing ts with
  | zero => exact List.Pairwise.nil
  | succ n ih => exact List.pairwise_cons.2 ⟨fun i hi => (of_mem_pad hi).1, ih _⟩

end Padding

/-! ### The window -/

section Window

variable {lookup : HeaderLookup} {header : BlockHeader} {chain : List BlockHeader}
variable {data : List HeaderInfo}

/-- **What the loader supplies**: one entry more than the window has, in the order of the heights,
the last of them those of the chain, and all of them bounded. -/
structure Window (chain : List BlockHeader) (data : List HeaderInfo) : Prop where
  /-- The number of the entries. -/
  length_eq : data.length = 61
  /-- The oldest entry comes first; those of the chain stand at the end, behind simulated ones. -/
  suffix : ((entries chain).take 61).reverse <:+ data
  /-- The times do not decrease. -/
  ordered : data.Pairwise fun i j => i.timestamp.toNat ≤ j.timestamp.toNat
  /-- The entries are bounded. -/
  bounded : ∀ i ∈ data, Bounded i

/-- The loader supplies the window. -/
theorem DMAInput.load (h : DMAInput lookup header chain) :
    ∃ data, DifficultyLoader.loadDifficultyData lookup header = .ok data ∧ Window chain data := by
  have hpair := entries_pairwise h.nonneg h.times
  rw [DifficultyLoader.loadDifficultyData, h.linked.load_eq, DifficultyLoader.padDifficultyData]
  by_cases hlong : 61 ≤ chain.length
  · have hlen : ((entries chain).take 61).length = 61 := by simp [hlong]
    refine ⟨((entries chain).take 61).reverse, if_pos hlen.ge, ?_⟩
    exact
      { length_eq := by rw [List.length_reverse, hlen]
        suffix := List.suffix_rfl
        ordered := List.pairwise_reverse.2 (hpair.sublist (List.take_sublist _ _))
        bounded := fun i hi =>
          h.bounded i (List.mem_of_mem_take (List.mem_reverse.1 hi)) }
  · have hshort : (entries chain).length < 61 := by simpa using hlong
    have htake : (entries chain).take 61 = entries chain := List.take_of_length_le hshort.le
    rw [show Consensus.difficultyAdjustWindow + 1 = 61 from rfl, htake, if_neg (by omega)]
    obtain ⟨first, hfirst⟩ : ∃ first, (entries chain).head? = some first := by
      match chain, h.nonempty with
      | _ :: _, _ => exact ⟨_, rfl⟩
    obtain ⟨last, hlast⟩ : ∃ last, (entries chain).getLast? = some last := by
      rw [← Option.isSome_iff_exists, List.getLast?_isSome]
      rintro hnil
      simp [hnil] at hfirst
    have hlastmem : last ∈ entries chain := List.mem_of_getLast? hlast
    rw [hfirst, hlast]
    refine ⟨_, rfl, ?_⟩
    exact
      { length_eq := by
          rw [List.length_reverse, List.length_append, length_pad]
          omega
        suffix := by
          rw [htake, List.reverse_append]
          exact List.suffix_append _ _
        ordered := by
          rw [List.pairwise_reverse, List.pairwise_append]
          refine ⟨hpair, pad_pairwise _ _, fun i hi j hj => ?_⟩
          -- what is simulated lies before the oldest header, and this before the others
          obtain ⟨init, hinit⟩ := List.getLast?_eq_some_iff.1 hlast
          have hij := (of_mem_pad hj).1
          rw [hinit, List.pairwise_append] at hpair
          rw [hinit, List.mem_append, List.mem_singleton] at hi
          rcases hi with hi | rfl
          · exact hij.trans (hpair.2.2 i hi last (List.mem_singleton_self _))
          · exact hij
        bounded := fun i hi => by
          rw [List.mem_reverse, List.mem_append] at hi
          rcases hi with hi | hi
          · exact h.bounded i hi
          · obtain ⟨hts, hdiff, hscaling⟩ := of_mem_pad hi
            refine ⟨lt_of_le_of_lt hts (h.bounded last hlastmem).time_lt, ?_, ?_⟩
            · rw [hdiff]
              exact (h.bounded first (List.mem_of_head? hfirst)).difficulty_lt
            · rw [hscaling]
              decide }

/-! ### The moving average over the window -/

/-- A sum of 64-bit numbers that fits. -/
theorem toNat_foldl_add {α : Type} (f : α → UInt64) (l : List α) (n : UInt64)
    (h : n.toNat + (l.map fun a => (f a).toNat).sum < 2 ^ 64) :
    (l.foldl (fun n a => n + f a) n).toNat = n.toNat + (l.map fun a => (f a).toNat).sum := by
  induction l generalizing n with
  | nil => simp
  | cons a l ih =>
    rw [List.map_cons, List.sum_cons] at h ⊢
    have hadd : (n + f a).toNat = n.toNat + (f a).toNat := toNat_add_of_lt (by omega)
    rw [List.foldl_cons, ih _ (by omega), hadd, Nat.add_assoc]

theorem toNat_damp {x goal k : UInt64} (hk : 1 ≤ k.toNat)
    (h : x.toNat + (k.toNat - 1) * goal.toNat < 2 ^ 64) :
    (Consensus.damp x goal k).toNat = Retarget.damp x.toNat goal.toNat k.toNat := by
  have hpred : (k - 1).toNat = k.toNat - 1 :=
    UInt64.toNat_sub_of_le _ _ (UInt64.le_iff_toNat_le.2 hk)
  have hmul : ((k - 1) * goal).toNat = (k.toNat - 1) * goal.toNat := by
    rw [toNat_mul_of_lt, hpred]
    rw [hpred]
    omega
  rw [Consensus.damp, UInt64.toNat_div, toNat_add_of_lt (by rwa [hmul]), hmul, Retarget.damp]

theorem toNat_clamp {x goal k : UInt64} (h : goal.toNat * k.toNat < 2 ^ 64) :
    (Consensus.clamp x goal k).toNat = Retarget.clamp x.toNat goal.toNat k.toNat := by
  rw [Consensus.clamp, toNat_max, toNat_min, UInt64.toNat_div, toNat_mul_of_lt h, Retarget.clamp]

/-- The sum of the difficulties of the window, without the entry in front of it. -/
def difficultySum (data : List HeaderInfo) : ℕ :=
  (data.tail.map fun i => i.difficulty.toNat).sum

/-- The time that the window took. -/
def timeSpan (data : List HeaderInfo) : ℕ :=
  match data.head?, data[60]? with
  | some first, some last => last.timestamp.toNat - first.timestamp.toNat
  | _, _ => 0

/-- That time, damped and clamped. -/
def adjustedTimeSpan (data : List HeaderInfo) : ℕ :=
  Retarget.clamp (Retarget.damp (timeSpan data) 3600 3) 3600 2

theorem adjustedTimeSpan_mem (data : List HeaderInfo) :
    1800 ≤ adjustedTimeSpan data ∧ adjustedTimeSpan data ≤ 7200 :=
  ⟨(by decide : 1800 ≤ 3600 / 2).trans Retarget.le_clamp, Retarget.clamp_le (by decide)⟩

/-- The sum of bounded summands. -/
theorem sum_map_le {α : Type} {f : α → ℕ} {b : ℕ} {l : List α} (h : ∀ a ∈ l, f a ≤ b) :
    (l.map f).sum ≤ l.length * b := by
  have hsum := List.sum_le_card_nsmul (l.map f) b (by simpa using h)
  simpa using hsum

theorem Window.difficultySum_lt (h : Window chain data) : difficultySum data < 2 ^ 63 := by
  have hle : difficultySum data ≤ data.tail.length * (2 ^ 57 - 1) :=
    sum_map_le fun i hi =>
      Nat.le_sub_one_of_lt (h.bounded i (List.mem_of_mem_tail hi)).difficulty_lt
  rw [List.length_tail, h.length_eq] at hle
  omega

theorem toNat_arCount {data : List HeaderInfo} (h : data.length = 60) :
    (arCount data).toNat ≤ 6000 := by
  have hcount : ∀ (l : List HeaderInfo) (n : UInt64), n.toNat + l.length < 2 ^ 64 →
      (l.foldl (fun n i => if i.secondary then n + 1 else n) n).toNat ≤ n.toNat + l.length := by
    intro l
    induction l with
    | nil => simp
    | cons i l ih =>
      intro n hn
      rw [List.length_cons] at hn ⊢
      have hsucc : (n + 1).toNat = n.toNat + 1 := toNat_add_of_lt (by simpa using by omega)
      rw [List.foldl_cons]
      split_ifs
      · have := ih (n + 1) (by omega)
        omega
      · have := ih n (by omega)
        omega
  have hle := hcount data 0 (by simp [h])
  rw [h, UInt64.toNat_zero] at hle
  rw [arCount, toNat_mul_of_lt]
  all_goals
    rw [show (100 : UInt64).toNat = 100 from rfl]
    omega

/-- The sum of the scaling factors of the window. -/
def scalingSum (data : List HeaderInfo) : ℕ :=
  (data.tail.map fun i => i.secondaryScaling.toNat).sum

/-- The number of secondary proofs of work in the window, in percent, damped and clamped. -/
def adjustedCount (height : ℕ) (data : List HeaderInfo) : ℕ :=
  Retarget.clamp
    (Retarget.damp (arCount data.tail).toNat (60 * Consensus.secondaryPOWRatio height) 13)
    (60 * Consensus.secondaryPOWRatio height) 2

theorem Window.scalingSum_le (h : Window chain data) : scalingSum data ≤ 60 * (2 ^ 31 - 1) := by
  have hle : scalingSum data ≤ data.tail.length * (2 ^ 31 - 1) :=
    sum_map_le fun i hi => Nat.le_sub_one_of_lt (h.bounded i (List.mem_of_mem_tail hi)).scaling_lt
  rwa [List.length_tail, h.length_eq] at hle

/-- What comes out of the scaling fits in 32 bits: the clamp keeps the count from being much
smaller than the ratio that the sum is multiplied by. -/
theorem Window.scaling_lt (h : Window chain data) (height : ℕ) :
    Retarget.atLeast 13 (scalingSum data * Consensus.secondaryPOWRatio height)
      (max 1 (adjustedCount height data)) < 2 ^ 32 := by
  have hsum := h.scalingSum_le
  have hadj : 60 * Consensus.secondaryPOWRatio height / 2 ≤ adjustedCount height data :=
    Retarget.le_clamp
  generalize Consensus.secondaryPOWRatio height = pct at *
  have hquot : scalingSum data * pct / max 1 (adjustedCount height data) ≤ 2 * (2 ^ 31 - 1) := by
    refine Nat.div_le_of_le_mul ?_
    calc scalingSum data * pct
        ≤ 60 * (2 ^ 31 - 1) * pct := Nat.mul_le_mul_right pct hsum
      _ = 30 * pct * (2 * (2 ^ 31 - 1)) := by ring
      _ ≤ max 1 (adjustedCount height data) * (2 * (2 ^ 31 - 1)) :=
          Nat.mul_le_mul_right _ (le_trans (by omega) (le_max_right 1 _))
  rw [Retarget.atLeast]
  omega

/-- **The scaling factor in exact arithmetic**: nothing wraps on the way, the conversion to 32
bits included. -/
theorem Window.toNat_secondaryPOWScaling (h : Window chain data) (height : ℕ) :
    (secondaryPOWScaling height data.tail).toNat =
      Retarget.atLeast 13 (scalingSum data * Consensus.secondaryPOWRatio height)
        (max 1 (adjustedCount height data)) := by
  have hlen : data.tail.length = 60 := by rw [List.length_tail, h.length_eq]
  have hlt := h.scaling_lt height
  have hsumle := h.scalingSum_le
  have har := toNat_arCount hlen
  have hpct : Consensus.secondaryPOWRatio height ≤ 90 := Nat.sub_le _ _
  have htarget : (UInt64.ofNat (Consensus.secondaryPOWRatio height)).toNat =
      Consensus.secondaryPOWRatio height :=
    UInt64.toNat_ofNat_of_lt' (lt_of_le_of_lt hpct (by decide))
  have hcount : (60 * UInt64.ofNat (Consensus.secondaryPOWRatio height)).toNat =
      60 * Consensus.secondaryPOWRatio height := by
    rw [toNat_mul_of_lt, htarget]
    · rfl
    · rw [htarget]
      exact lt_of_le_of_lt (Nat.mul_le_mul_left 60 hpct) (by decide)
  have hscale : (scalingFactorSum data.tail).toNat = scalingSum data := by
    rw [scalingFactorSum, toNat_foldl_add, UInt64.toNat_zero, Nat.zero_add]
    · rfl
    · show 0 + scalingSum data < 2 ^ 64
      omega
  have hproduct : (scalingFactorSum data.tail *
      UInt64.ofNat (Consensus.secondaryPOWRatio height)).toNat =
        scalingSum data * Consensus.secondaryPOWRatio height := by
    rw [toNat_mul_of_lt, hscale, htarget]
    rw [hscale, htarget]
    calc scalingSum data * Consensus.secondaryPOWRatio height
        ≤ 60 * (2 ^ 31 - 1) * 90 := Nat.mul_le_mul hsumle hpct
      _ < 2 ^ 64 := by decide
  have hdamp : (Consensus.damp (arCount data.tail)
      (60 * UInt64.ofNat (Consensus.secondaryPOWRatio height)) 13).toNat =
        Retarget.damp (arCount data.tail).toNat (60 * Consensus.secondaryPOWRatio height) 13 := by
    rw [toNat_damp (by decide), hcount]
    · rfl
    · rw [hcount, show (13 : UInt64).toNat = 13 from rfl]
      omega
  have hadj : (Consensus.clamp (Consensus.damp (arCount data.tail)
      (60 * UInt64.ofNat (Consensus.secondaryPOWRatio height)) 13)
        (60 * UInt64.ofNat (Consensus.secondaryPOWRatio height)) 2).toNat =
          adjustedCount height data := by
    rw [toNat_clamp, hdamp, hcount]
    · rfl
    · rw [hcount, show (2 : UInt64).toNat = 2 from rfl]
      omega
  rw [secondaryPOWScaling, UInt64.toNat_toUInt32, toNat_max, UInt64.toNat_div, hproduct,
    toNat_max, hadj]
  exact Nat.mod_eq_of_lt hlt

/-- The two ends of the window; the span between them is not negative. -/
theorem Window.ends (h : Window chain data) :
    ∃ first last, data.head? = some first ∧ data[60]? = some last ∧
      first.timestamp.toNat ≤ last.timestamp.toNat ∧ last.timestamp.toNat < 2 ^ 62 := by
  have hlen := h.length_eq
  have hlt : 60 < data.length := by omega
  have hlast : data[60]? = some data[60] := List.getElem?_eq_getElem hlt
  cases data with
  | nil => cases hlen
  | cons first rest =>
    refine ⟨first, _, rfl, hlast, ?_, ?_⟩
    · exact List.pairwise_iff_getElem.1 h.ordered 0 60 (by omega) (by omega) (by decide)
    · exact (h.bounded _ (List.getElem_mem _)).time_lt

/-- The adjusted time span in exact arithmetic. -/
theorem Window.toNat_adjusted (h : Window chain data) {first last : HeaderInfo}
    (hfirst : data.head? = some first) (hlast : data[60]? = some last) :
    (Consensus.clamp (Consensus.damp (last.timestamp - first.timestamp) Consensus.blockTimeWindow 3)
      Consensus.blockTimeWindow 2).toNat = adjustedTimeSpan data := by
  obtain ⟨first', last', hfirst', hlast', hle, hlt⟩ := h.ends
  obtain rfl : first' = first := Option.some.inj (hfirst'.symm.trans hfirst)
  obtain rfl : last' = last := Option.some.inj (hlast'.symm.trans hlast)
  have hspan : (last'.timestamp - first'.timestamp).toNat = timeSpan data := by
    rw [UInt64.toNat_sub_of_le _ _ (UInt64.le_iff_toNat_le.2 hle), timeSpan, hfirst, hlast]
  have hwindow : Consensus.blockTimeWindow.toNat = 3600 := rfl
  have hsmall : timeSpan data < 2 ^ 62 := by
    rw [← hspan, UInt64.toNat_sub_of_le _ _ (UInt64.le_iff_toNat_le.2 hle)]
    omega
  rw [toNat_clamp (by decide), toNat_damp (by decide), hspan, hwindow]
  · rfl
  · rw [hspan, hwindow, show (3 : UInt64).toNat = 3 from rfl]
    omega

/-- **The difficulty in exact arithmetic**: nothing wraps on the way, provided that the product of
the sum of the difficulties and the block time does not. -/
theorem Window.nextDMA_eq (h : Window chain data)
    (hload : DifficultyLoader.loadDifficultyData lookup header = .ok data) :
    ∃ info, nextDMA lookup header = .ok info ∧
      info.secondaryScaling = secondaryPOWScaling header.getHeight data.tail ∧
      (difficultySum data * 60 < 2 ^ 64 →
        info.difficulty.toNat =
          Retarget.atLeast 3 (difficultySum data * 60) (adjustedTimeSpan data)) := by
  obtain ⟨first, last, hfirst, hlast, -, -⟩ := h.ends
  have hsum : (data.tail.foldl (fun n (i : HeaderInfo) => n + i.difficulty) 0).toNat =
      difficultySum data := by
    have hlt := h.difficultySum_lt
    rw [toNat_foldl_add, UInt64.toNat_zero, Nat.zero_add]
    · rfl
    · show 0 + difficultySum data < 2 ^ 64
      omega
  refine ⟨HeaderInfo.fromDiffAndScaling
    (max 3 (data.tail.foldl (fun n i => n + i.difficulty) 0 * Consensus.blockTimeSec /
      Consensus.clamp
        (Consensus.damp (last.timestamp - first.timestamp) Consensus.blockTimeWindow 3)
        Consensus.blockTimeWindow 2))
    (secondaryPOWScaling header.getHeight data.tail), ?_, rfl, fun hfits => ?_⟩
  · rw [nextDMA, hload, Exec.ok_bind]
    simp only [hfirst, show data[Consensus.difficultyAdjustWindow]? = some last from hlast]
  · have hproduct : (data.tail.foldl (fun n i => n + i.difficulty) 0 *
        Consensus.blockTimeSec).toNat = difficultySum data * 60 := by
      rw [toNat_mul_of_lt, hsum]
      · rfl
      · rw [hsum]
        exact hfits
    rw [HeaderInfo.fromDiffAndScaling, toNat_max, UInt64.toNat_div, hproduct,
      h.toNat_adjusted hfirst hlast]
    rfl

/-- In a chain that fills the window, the difficulties that count are those of real headers, and
the product fits. -/
theorem Window.fits_of_long (hdata : Window chain data) (h : DMAInput lookup header chain)
    (hlong : 61 ≤ chain.length) : difficultySum data * 60 < 2 ^ 64 := by
  have heq : ((entries chain).take 61).reverse = data :=
    hdata.suffix.eq_of_length (by simp [hdata.length_eq, hlong])
  obtain ⟨newest, older, rfl⟩ : ∃ newest older, chain = newest :: older :=
    List.exists_cons_of_ne_nil h.nonempty
  have htail : difficultySum data ≤ (data.map fun i => i.difficulty.toNat).sum :=
    ((List.tail_sublist data).map _).sum_le_sum fun _ _ => Nat.zero_le _
  have htake : (((entries (newest :: older)).take 61).map fun i => i.difficulty.toNat).sum ≤
      ((entries (newest :: older)).map fun i => i.difficulty.toNat).sum :=
    ((List.take_sublist 61 _).map _).sum_le_sum fun _ _ => Nat.zero_le _
  rw [← heq, List.map_reverse, List.sum_reverse] at htail
  rw [sum_entries h.difficulties] at htake
  have hlt := h.difficulty_lt newest List.mem_cons_self
  rw [heq] at htail
  omega

/-- **No subtraction of the moving average wraps**, and it does not divide by zero. -/
structure DMAExact (chain : List BlockHeader) (data : List HeaderInfo) : Prop where
  /-- The difficulty that a header of the chain added. -/
  difficulty : ∀ h p, [h, p] <:+: chain →
    (h.totalDifficulty - p.totalDifficulty).toNat = h.getTotalDifficulty - p.getTotalDifficulty
  /-- The time between two headers of the chain, which the simulated headers repeat. -/
  delta : ∀ i j, [i, j] <:+: entries chain →
    (i.timestamp - j.timestamp).toNat = i.timestamp.toNat - j.timestamp.toNat
  /-- The times of the simulated headers. -/
  simulated : ∀ ts δ : UInt64, (ts - min ts δ).toNat = ts.toNat - min ts.toNat δ.toNat
  /-- The time that the window took. -/
  span : ∀ first last, data.head? = some first → data[60]? = some last →
    (last.timestamp - first.timestamp).toNat = last.timestamp.toNat - first.timestamp.toNat
  /-- The adjusted time span is that of exact arithmetic, and not zero. -/
  adjusted : ∀ first last, data.head? = some first → data[60]? = some last →
    (Consensus.clamp (Consensus.damp (last.timestamp - first.timestamp) Consensus.blockTimeWindow 3)
      Consensus.blockTimeWindow 2).toNat = adjustedTimeSpan data
  /-- The scaling is that of exact arithmetic, with a divisor that is not zero. -/
  scaling : ∀ height, (secondaryPOWScaling height data.tail).toNat =
    Retarget.atLeast 13 (scalingSum data * Consensus.secondaryPOWRatio height)
      (max 1 (adjustedCount height data))

theorem Window.exact (hdata : Window chain data) (h : DMAInput lookup header chain) :
    DMAExact chain data where
  difficulty a b hab := by
    have hlt := (List.pairwise_pair.1 (h.difficulties.sublist hab.sublist)).le
    exact UInt64.toNat_sub_of_le _ _ (UInt64.le_iff_toNat_le.2 hlt)
  delta i j hij := by
    have hle := List.pairwise_pair.1 ((entries_pairwise h.nonneg h.times).sublist hij.sublist)
    exact UInt64.toNat_sub_of_le _ _ (UInt64.le_iff_toNat_le.2 hle)
  simulated := toNat_sub_min
  span first last hfirst hlast := by
    obtain ⟨first', last', hfirst', hlast', hle, -⟩ := hdata.ends
    obtain rfl : first' = first := Option.some.inj (hfirst'.symm.trans hfirst)
    obtain rfl : last' = last := Option.some.inj (hlast'.symm.trans hlast)
    exact UInt64.toNat_sub_of_le _ _ (UInt64.le_iff_toNat_le.2 hle)
  adjusted _ _ hfirst hlast := hdata.toNat_adjusted hfirst hlast
  scaling := hdata.toNat_secondaryPOWScaling

/-- The difficulty lies between what the longest and the shortest time span give. -/
def InRange (data : List HeaderInfo) (info : HeaderInfo) : Prop :=
  max 3 (difficultySum data * 60 / 7200) ≤ info.difficulty.toNat ∧
    info.difficulty.toNat ≤ max 3 (difficultySum data * 60 / 1800)

/-- **The moving average stays in range**: the loader supplies the window, no subtraction wraps, the
adjusted time span and the scaling are within their bounds, and so is the difficulty, as long as
the sum of the difficulties times the block time fits in 64 bits – which it does once the chain
fills the window. -/
theorem nextDMA_inRange (h : DMAInput lookup header chain) :
    ∃ data info, DifficultyLoader.loadDifficultyData lookup header = .ok data ∧
      nextDMA lookup header = .ok info ∧ Window chain data ∧ DMAExact chain data ∧
      (1800 ≤ adjustedTimeSpan data ∧ adjustedTimeSpan data ≤ 7200) ∧
      13 ≤ info.secondaryScaling.toNat ∧
      (61 ≤ chain.length ∨ difficultySum data * 60 < 2 ^ 64 → InRange data info) := by
  obtain ⟨data, hload, hdata⟩ := h.load
  obtain ⟨info, hinfo, hscaling, hdiff⟩ := hdata.nextDMA_eq hload
  refine ⟨data, info, hload, hinfo, hdata, hdata.exact h, adjustedTimeSpan_mem data, ?_, ?_⟩
  · rw [hscaling, hdata.toNat_secondaryPOWScaling]
    exact Retarget.le_atLeast
  · intro hfits
    have hlow : Retarget.atLeast 3 (difficultySum data * 60) (3600 * 2) ≤
        Retarget.atLeast 3 (difficultySum data * 60) (adjustedTimeSpan data) :=
      Retarget.le_atLeast_clamp (by decide) (by decide)
    have hhigh : Retarget.atLeast 3 (difficultySum data * 60) (adjustedTimeSpan data) ≤
        Retarget.atLeast 3 (difficultySum data * 60) (3600 / 2) :=
      Retarget.atLeast_clamp_le (by decide)
    rw [InRange, hdiff (hfits.elim (hdata.fits_of_long h) id)]
    exact ⟨hlow, hhigh⟩

/-- A genesis header with a large difficulty. -/
def heavyHeader : BlockHeader :=
  { SmallNet.genesisHeader with
    timestamp := 3600
    totalDifficulty := 72057594037927936 }

/-- Only that header is known. -/
def heavyGenesis : HeaderLookup := fun hash =>
  if hash = ⟨1⟩ then some heavyHeader else none

theorem dmaInput_heavyGenesis :
    DMAInput heavyGenesis (headerAt 3660 0 1) [heavyHeader] where
  linked := ⟨rfl, rfl⟩
  nonempty := List.cons_ne_nil _ _
  nonneg := by simp only [List.forall_mem_singleton]; decide
  time_lt := by simp only [List.forall_mem_singleton]; decide
  times := List.pairwise_singleton _ _
  difficulty_lt := by simp only [List.forall_mem_singleton]; decide
  difficulties := List.pairwise_singleton _ _
  scaling_lt := by simp only [List.forall_mem_singleton]; decide

theorem nextDMA_inRange_heavyGenesis :
    ∃ data info, DifficultyLoader.loadDifficultyData heavyGenesis (headerAt 3660 0 1) = .ok data ∧
      nextDMA heavyGenesis (headerAt 3660 0 1) = .ok info ∧ adjustedTimeSpan data ≤ 7200 := by
  obtain ⟨data, info, hload, hinfo, -, -, hadj, -⟩ := nextDMA_inRange dmaInput_heavyGenesis
  exact ⟨data, info, hload, hinfo, hadj.2⟩

/-- The simulated headers repeat the difficulty of the newest one, sixty times if it is the only
one, and the product wraps. -/
theorem not_inRange_heavyGenesis :
    ¬ ∀ (lookup : HeaderLookup) (header : BlockHeader) (chain : List BlockHeader),
      DMAInput lookup header chain →
      ∃ data info, DifficultyLoader.loadDifficultyData lookup header = .ok data ∧
        nextDMA lookup header = .ok info ∧ InRange data info := by
  intro h
  obtain ⟨data, info, hload, hinfo, hrange, -⟩ := h _ _ _ dmaInput_heavyGenesis
  have hrun : ((DifficultyLoader.loadDifficultyData heavyGenesis (headerAt 3660 0 1)).toOption.bind
      fun data => (nextDMA heavyGenesis (headerAt 3660 0 1)).toOption.map fun info =>
        decide (max 3 (difficultySum data * 60 / 7200) ≤ info.difficulty.toNat)) = some false := by
    decide +kernel
  rw [hload, hinfo] at hrun
  exact of_decide_eq_false (Option.some.inj hrun) hrange

end Window

end DifficultyCalculator

end GrinPlusPlus
