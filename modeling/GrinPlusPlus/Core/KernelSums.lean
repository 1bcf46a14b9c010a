import GrinPlusPlus.Core.Validation
import Mathlib.Algebra.BigOperators.Group.List.Basic
import Mathlib.Tactic.Abel

/-!
# Sums of commitments

What `KernelSumValidator` computes when commitments add up like the elements of a group
(`GrinPlusPlus.CommitmentGroup`). Splitting the lists into chunks makes no difference
(`GrinPlusPlus.KernelSumValidator.val_addCommitmentsChunked`), so a check of sums is an
equation of the group, and a comparison of two commitments
(`GrinPlusPlus.KernelSumValidator.validateCommitmentSums_eq_ok_iff`).
-/

/-! ### Chunks -/

namespace List

theorem flatten_toChunks_go {α : Type} (n : ℕ) (xs : List α) (chunk : Array α)
    (chunks : Array (List α)) :
    (toChunks.go n xs chunk chunks).flatten = chunks.toList.flatten ++ chunk.toList ++ xs := by
  induction xs generalizing chunk chunks with
  | nil => simp [toChunks.go]
  | cons x xs ih =>
    rw [toChunks.go]
    split
    · rw [ih]
      simp
    · rw [ih]
      simp

/-- The chunks of a list put together are the list. -/
theorem flatten_toChunks {α : Type} (n : ℕ) (xs : List α) : (xs.toChunks n).flatten = xs := by
  cases xs with
  | nil => cases n <;> rfl
  | cons x xs =>
    cases n with
    | zero => simp [toChunks]
    | succ n =>
      rw [toChunks]
      · rw [flatten_toChunks_go]
        simp
      · simp

end List

namespace GrinPlusPlus

/-- Commitments as the elements of a group: adding them is the sum of the group, and the
commitment to a value without blinding is a multiple of a base. -/
structure CommitmentGroup (G : Global) (A : Type) [AddCommGroup A] where
  /-- The element of a commitment. -/
  val : Commitment → A
  /-- Commitments are equal when their elements are. -/
  val_injective : ∀ c d, val c = val d → c = d
  /-- `AddCommitments` is the sum. -/
  addCommitments : ∀ positive negative, ∃ c, G.addCommitments positive negative = some c ∧
    val c = (positive.map val).sum - (negative.map val).sum
  /-- The base of the values. -/
  base : A
  /-- `CommitTransparent` is a multiple of the base. -/
  commitTransparent : ∀ value, value < 2 ^ 64 →
    ∃ c, G.commitTransparent value = some c ∧ val c = value • base

variable {G : Global} {A : Type} [AddCommGroup A] (S : CommitmentGroup G A)

namespace CommitmentGroup

/-- The sum of some commitments. -/
def sum (commitments : List Commitment) : A :=
  (commitments.map S.val).sum

@[simp] theorem sum_nil : S.sum [] = 0 := rfl

@[simp] theorem sum_cons (c : Commitment) (cs : List Commitment) :
    S.sum (c :: cs) = S.val c + S.sum cs := by
  simp [sum]

@[simp] theorem sum_append (cs ds : List Commitment) :
    S.sum (cs ++ ds) = S.sum cs + S.sum ds := by
  simp [sum]

theorem addCommitments_ok (positive negative : List Commitment) :
    ∃ c, GrinPlusPlus.addCommitments G positive negative = .ok c ∧
      S.val c = S.sum positive - S.sum negative := by
  obtain ⟨c, hc, hval⟩ := S.addCommitments positive negative
  exact ⟨c, by rw [GrinPlusPlus.addCommitments, hc]; rfl, hval⟩

theorem commitTransparent_ok {value : ℕ} (h : value < 2 ^ 64) :
    ∃ c, GrinPlusPlus.commitTransparent G value = .ok c ∧ S.val c = value • S.base := by
  obtain ⟨c, hc, hval⟩ := S.commitTransparent value h
  exact ⟨c, by rw [GrinPlusPlus.commitTransparent, hc]; rfl, hval⟩

end CommitmentGroup

namespace KernelSumValidator

/-- **The sums of the chunks add up to the sum of the list.** -/
theorem appendChunkSums_ok (commitments : List Commitment) :
    ∃ partialSums, appendChunkSums G commitments = .ok partialSums ∧
      S.sum partialSums = S.sum commitments := by
  have key : ∀ chunks : List (List Commitment), ∃ partialSums,
      chunks.mapM (fun chunk => addCommitments G chunk []) = .ok partialSums ∧
        S.sum partialSums = S.sum chunks.flatten := by
    intro chunks
    induction chunks with
    | nil => exact ⟨[], rfl, rfl⟩
    | cons chunk chunks ih =>
      obtain ⟨c, hc, hval⟩ := S.addCommitments_ok chunk []
      obtain ⟨cs, hcs, hsum⟩ := ih
      refine ⟨c :: cs, ?_, ?_⟩
      · rw [List.mapM_cons, hc, hcs]
        rfl
      · rw [List.flatten_cons, S.sum_append, S.sum_cons, hval, hsum, S.sum_nil, sub_zero]
  obtain ⟨partialSums, hrun, hsum⟩ := key (commitments.toChunks commitmentSumChunkSize)
  refine ⟨partialSums, hrun, ?_⟩
  rw [hsum, List.flatten_toChunks]

/-- **Chunks make no difference.** -/
theorem addCommitmentsChunked_ok (positive negative : List Commitment) :
    ∃ c, addCommitmentsChunked G positive negative = .ok c ∧
      S.val c = S.sum positive - S.sum negative := by
  rw [addCommitmentsChunked]
  split
  · exact S.addCommitments_ok positive negative
  · obtain ⟨ps, hps, hpsum⟩ := appendChunkSums_ok S positive
    obtain ⟨ns, hns, hnsum⟩ := appendChunkSums_ok S negative
    obtain ⟨c, hc, hval⟩ := S.addCommitments_ok ps ns
    refine ⟨c, ?_, by rw [hval, hpsum, hnsum]⟩
    rw [hps, hns]
    exact hc

/-- The overage, on its side. -/
theorem overageCommitments_ok {overage : ℤ} (h : overage.natAbs < 2 ^ 64) :
    ∃ outputs inputs, overageCommitments G overage = .ok (outputs, inputs) ∧
      S.sum outputs - S.sum inputs = overage • S.base := by
  rw [overageCommitments]
  split
  · next hpos =>
    obtain ⟨c, hc, hval⟩ := S.commitTransparent_ok (by omega : overage.toNat < 2 ^ 64)
    refine ⟨[c], [], by rw [hc]; rfl, ?_⟩
    rw [S.sum_cons, S.sum_nil, hval, add_zero, sub_zero, ← natCast_zsmul,
      Int.toNat_of_nonneg (by omega)]
  · split
    · next hneg =>
      obtain ⟨c, hc, hval⟩ := S.commitTransparent_ok (by omega : (-overage).toNat < 2 ^ 64)
      refine ⟨[], [c], by rw [hc]; rfl, ?_⟩
      rw [S.sum_cons, S.sum_nil, hval, add_zero, zero_sub, ← natCast_zsmul,
        Int.toNat_of_nonneg (by omega), neg_zsmul, neg_neg]
    · next hpos hneg =>
      obtain rfl : overage = 0 := by omega
      exact ⟨[], [], rfl, by simp⟩

/-- **What a check of sums says**: the two sums are those of the group, and the sum of the
outputs is the one of the kernels plus the offset. -/
theorem validateCommitmentSums_eq_ok_iff {inputs outputs kernels : List Commitment} {overage : ℤ}
    (h : overage.natAbs < 2 ^ 64) {offset : BlindingFactor} {previous : Option BlockSums}
    {sums : BlockSums} :
    validateCommitmentSums G inputs outputs kernels overage offset previous = .ok sums ↔
      S.val sums.outputSum = S.sum outputs - S.sum inputs + overage • S.base +
          S.sum (previous.map BlockSums.outputSum).toList ∧
        S.val sums.kernelSum =
          S.sum kernels + S.sum (previous.map BlockSums.kernelSum).toList ∧
        addKernelOffset G sums.kernelSum offset = .ok sums.outputSum := by
  obtain ⟨more, less, hoverage, hsum⟩ := overageCommitments_ok S h
  obtain ⟨utxoSum, hutxo, hutxoVal⟩ := addCommitmentsChunked_ok S
    (outputs ++ more ++ (previous.map BlockSums.outputSum).toList) (inputs ++ less)
  obtain ⟨kernelSum, hkernel, hkernelVal⟩ := addCommitmentsChunked_ok S
    (kernels ++ (previous.map BlockSums.kernelSum).toList) []
  have hutxoVal' : S.val utxoSum = S.sum outputs - S.sum inputs + overage • S.base +
      S.sum (previous.map BlockSums.outputSum).toList := by
    rw [hutxoVal, ← hsum]
    simp only [S.sum_append]
    abel
  have hkernelVal' : S.val kernelSum =
      S.sum kernels + S.sum (previous.map BlockSums.kernelSum).toList := by
    rw [hkernelVal, S.sum_append, S.sum_nil, sub_zero]
  rw [validateCommitmentSums, hoverage]
  dsimp only [bind, Except.bind]
  rw [hutxo]
  dsimp only
  rw [hkernel]
  dsimp only
  constructor
  · intro hrun
    rcases hoffset : addKernelOffset G kernelSum offset with e | withOffset
    · rw [hoffset] at hrun
      cases hrun
    · rw [hoffset] at hrun
      dsimp only at hrun
      by_cases heq : utxoSum = withOffset
      · rw [require, if_pos heq] at hrun
        cases hrun
        exact ⟨hutxoVal', hkernelVal', heq ▸ hoffset⟩
      · rw [require, if_neg heq] at hrun
        cases hrun
  · rintro ⟨hout, hker, hoffset⟩
    -- The sums are the only commitments with these elements.
    have h1 : sums.outputSum = utxoSum := S.val_injective _ _ (hout.trans hutxoVal'.symm)
    have h2 : sums.kernelSum = kernelSum := S.val_injective _ _ (hker.trans hkernelVal'.symm)
    rw [h1, h2] at hoffset
    rw [hoffset]
    dsimp only
    rw [require, if_pos rfl]
    dsimp only
    rw [← h1, ← h2]

end KernelSumValidator

end GrinPlusPlus
