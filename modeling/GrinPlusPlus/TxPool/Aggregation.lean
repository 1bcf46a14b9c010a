import GrinPlusPlus.Core.KernelCodec
import GrinPlusPlus.Lib.CutThrough
import GrinPlusPlus.TxPool.TransactionPool
import GrinPlusPlus.Wallet.SmallWallet
import Mathlib.Algebra.BigOperators.Ring.Finset
import Mathlib.Data.ZMod.Basic

/-!
# The laws of aggregation

`TransactionUtil::Aggregate` puts transactions together: it collects what they spend, create and
sign, drops the outputs that are spent within, sorts what is left and adds up the offsets. The
pools nest such calls – a transaction of the stempool is put together with the aggregate of the
mempool – and rely on it that this makes no difference.

When every commitment is spent at most once and created at most once, this is so
(`GrinPlusPlus.aggregate_laws`): **the aggregate does not depend on the order, and a part may be
put together first.** It has nothing in common on its two sides, the same kernels, and the same
sums.

What is needed for this is that the offsets add up as in a group
(`GrinPlusPlus.OffsetGroup`), and that a sort by hash tells the things it sorts apart
(`GrinPlusPlus.HashesDiffer`).
-/

namespace GrinPlusPlus

/-! ### What is put together -/

/-- Offsets as the elements of a group: `AddBlindingFactors` is the sum of the group. -/
structure OffsetGroup (G : Global) (B : Type) [AddCommGroup B] where
  /-- The 32 bytes of an element. -/
  factor : B → BlindingFactor
  /-- Elements are equal when their bytes are. -/
  factor_injective : ∀ a b, factor a = factor b → a = b
  /-- `AddBlindingFactors` is the sum. -/
  addBlindingFactors : ∀ blinds : List B,
    G.addBlindingFactors (blinds.map factor) [] = some (factor blinds.sum)

namespace TransactionUtil

/-- All that some transactions spend. -/
def spentBy (transactions : List Transaction) : List TransactionInput :=
  transactions.flatMap fun tx => tx.body.inputs

/-- All that they create. -/
def createdBy (transactions : List Transaction) : List TransactionOutput :=
  transactions.flatMap fun tx => tx.body.outputs

/-- All that they sign. -/
def signedBy (transactions : List Transaction) : List TransactionKernel :=
  transactions.flatMap fun tx => tx.body.kernels

end TransactionUtil

open TransactionUtil

/-- The hash tells the things in some transactions apart. -/
structure HashesDiffer (G : Global) (transactions : List Transaction) : Prop where
  /-- The inputs. -/
  inputs : ∀ a ∈ spentBy transactions, ∀ b ∈ spentBy transactions,
    a.getHash G = b.getHash G → a = b
  /-- The outputs. -/
  outputs : ∀ a ∈ createdBy transactions, ∀ b ∈ createdBy transactions,
    a.getHash G = b.getHash G → a = b
  /-- The kernels. -/
  kernels : ∀ a ∈ signedBy transactions, ∀ b ∈ signedBy transactions,
    a.getHash G = b.getHash G → a = b

/-- A transaction is sorted and cut through, as `Aggregate` leaves it. -/
structure Transaction.Canonical (G : Global) (tx : Transaction) : Prop where
  /-- The inputs are sorted. -/
  inputs : tx.body.inputs.Pairwise fun a b => (a.getHash G).value ≤ (b.getHash G).value
  /-- The outputs are sorted. -/
  outputs : tx.body.outputs.Pairwise fun a b => (a.getHash G).value ≤ (b.getHash G).value
  /-- The kernels are sorted. -/
  kernels : tx.body.kernels.Pairwise fun a b => (a.getHash G).value ≤ (b.getHash G).value
  /-- It spends nothing it creates. -/
  disjoint : ∀ i ∈ tx.body.inputs, ∀ o ∈ tx.body.outputs, i.commitment ≠ o.commitment

/-- The transactions are sorted and cut through, and no commitment is spent twice or created
twice. -/
structure Aggregable (G : Global) (transactions : List Transaction) : Prop where
  /-- They are sorted and cut through. -/
  canonical : ∀ tx ∈ transactions, tx.Canonical G
  /-- Nothing is spent twice. -/
  inputs_nodup : ((spentBy transactions).map TransactionInput.commitment).Nodup
  /-- Nothing is created twice. -/
  outputs_nodup : ((createdBy transactions).map TransactionOutput.commitment).Nodup

/-- What is put together from transactions, under an offset. -/
def combined (G : Global) (offset : BlindingFactor) (transactions : List Transaction) :
    Transaction :=
  ⟨offset,
    sortByHash (TransactionInput.getHash G)
      (performCutThrough (spentBy transactions) (createdBy transactions)).1,
    sortByHash (TransactionOutput.getHash G)
      (performCutThrough (spentBy transactions) (createdBy transactions)).2,
    sortByHash (TransactionKernel.getHash G) (signedBy transactions)⟩

/-! ### Putting together -/

section Combine

variable {G : Global} {B : Type} [AddCommGroup B] (O : OffsetGroup G B)
  {transactions transactions' sub rest : List Transaction}

theorem HashesDiffer.subset (h : HashesDiffer G transactions)
    (hinputs : ∀ i ∈ spentBy transactions', i ∈ spentBy transactions)
    (houtputs : ∀ o ∈ createdBy transactions', o ∈ createdBy transactions)
    (hkernels : ∀ k ∈ signedBy transactions', k ∈ signedBy transactions) :
    HashesDiffer G transactions' where
  inputs a ha b hb := h.inputs a (hinputs a ha) b (hinputs b hb)
  outputs a ha b hb := h.outputs a (houtputs a ha) b (houtputs b hb)
  kernels a ha b hb := h.kernels a (hkernels a ha) b (hkernels b hb)

theorem HashesDiffer.perm (h : HashesDiffer G transactions)
    (hperm : transactions.Perm transactions') : HashesDiffer G transactions' :=
  h.subset (fun _ => (hperm.flatMap_right _).mem_iff.2) (fun _ => (hperm.flatMap_right _).mem_iff.2)
    (fun _ => (hperm.flatMap_right _).mem_iff.2)

theorem Aggregable.perm (h : Aggregable G transactions)
    (hperm : transactions.Perm transactions') : Aggregable G transactions' where
  canonical tx htx := h.canonical tx (hperm.mem_iff.2 htx)
  inputs_nodup := ((hperm.flatMap_right _).map _).nodup_iff.1 h.inputs_nodup
  outputs_nodup := ((hperm.flatMap_right _).map _).nodup_iff.1 h.outputs_nodup

theorem spentBy_append : spentBy (sub ++ rest) = spentBy sub ++ spentBy rest :=
  List.flatMap_append

theorem createdBy_append : createdBy (sub ++ rest) = createdBy sub ++ createdBy rest :=
  List.flatMap_append

theorem signedBy_append : signedBy (sub ++ rest) = signedBy sub ++ signedBy rest :=
  List.flatMap_append

theorem Aggregable.left (h : Aggregable G (sub ++ rest)) : Aggregable G sub where
  canonical tx htx := h.canonical tx (List.mem_append_left _ htx)
  inputs_nodup := by
    have hnodup := h.inputs_nodup
    rw [spentBy_append, List.map_append] at hnodup
    exact (List.nodup_append.1 hnodup).1
  outputs_nodup := by
    have hnodup := h.outputs_nodup
    rw [createdBy_append, List.map_append] at hnodup
    exact (List.nodup_append.1 hnodup).1

theorem HashesDiffer.left (h : HashesDiffer G (sub ++ rest)) : HashesDiffer G sub := by
  refine h.subset (fun i hi => ?_) (fun o ho => ?_) (fun k hk => ?_)
  · rw [spentBy_append]
    exact List.mem_append_left _ hi
  · rw [createdBy_append]
    exact List.mem_append_left _ ho
  · rw [signedBy_append]
    exact List.mem_append_left _ hk

theorem mem_combined_inputs {offset : BlindingFactor} {i : TransactionInput}
    (h : i ∈ (combined G offset transactions).body.inputs) :
    i ∈ (performCutThrough (spentBy transactions) (createdBy transactions)).1 :=
  ((sortsByHash_sortByHash _).perm _).mem_iff.1 h

theorem mem_combined_outputs {offset : BlindingFactor} {o : TransactionOutput}
    (h : o ∈ (combined G offset transactions).body.outputs) :
    o ∈ (performCutThrough (spentBy transactions) (createdBy transactions)).2 :=
  ((sortsByHash_sortByHash _).perm _).mem_iff.1 h

/-- What is put together is sorted and cut through. -/
theorem canonical_combined (offset : BlindingFactor) : (combined G offset transactions).Canonical G
    where
  inputs := (sortsByHash_sortByHash _).sorted _
  outputs := (sortsByHash_sortByHash _).sorted _
  kernels := (sortsByHash_sortByHash _).sorted _
  disjoint _ hi _ ho :=
    CutThrough.disjoint (mem_combined_inputs hi) (mem_combined_outputs ho)

theorem combined_congr (h : HashesDiffer G transactions)
    (hinputs : (performCutThrough (spentBy transactions) (createdBy transactions)).1.Perm
      (performCutThrough (spentBy transactions') (createdBy transactions')).1)
    (houtputs : (performCutThrough (spentBy transactions) (createdBy transactions)).2.Perm
      (performCutThrough (spentBy transactions') (createdBy transactions')).2)
    (hkernels : (signedBy transactions).Perm (signedBy transactions')) (offset : BlindingFactor) :
    combined G offset transactions = combined G offset transactions' := by
  unfold combined
  rw [sortByHash_eq_of_perm hinputs fun a ha b hb =>
      h.inputs a (CutThrough.mem_cut.1 ha).1 b (CutThrough.mem_cut.1 hb).1,
    sortByHash_eq_of_perm houtputs fun a ha b hb =>
      h.outputs a (CutThrough.mem_cut.1 ha).1 b (CutThrough.mem_cut.1 hb).1,
    sortByHash_eq_of_perm hkernels h.kernels]

/-- **It does not depend on the order.** -/
theorem combined_perm (h : HashesDiffer G transactions) (hperm : transactions.Perm transactions')
    (offset : BlindingFactor) :
    combined G offset transactions = combined G offset transactions' := by
  have hinputs : (spentBy transactions).Perm (spentBy transactions') := hperm.flatMap_right _
  have houtputs : (createdBy transactions).Perm (createdBy transactions') := hperm.flatMap_right _
  exact combined_congr h (CutThrough.cut_perm hinputs houtputs)
    (CutThrough.cut_perm houtputs hinputs) (hperm.flatMap_right _) offset

/-- A transaction is put together from itself. -/
theorem combined_singleton {tx : Transaction} (h : tx.Canonical G) (hdiffer : HashesDiffer G [tx]) :
    combined G tx.offset [tx] = tx := by
  have hin : spentBy [tx] = tx.body.inputs := List.flatMap_singleton _ _
  have hout : createdBy [tx] = tx.body.outputs := List.flatMap_singleton _ _
  have hker : signedBy [tx] = tx.body.kernels := List.flatMap_singleton _ _
  have hcut : performCutThrough tx.body.inputs tx.body.outputs =
      (tx.body.inputs, tx.body.outputs) := performCutThrough_eq_self h.disjoint
  have hinputs := hdiffer.inputs
  have houtputs := hdiffer.outputs
  have hkernels := hdiffer.kernels
  rw [hin] at hinputs
  rw [hout] at houtputs
  rw [hker] at hkernels
  rw [combined, hin, hout, hker, hcut,
    (sortsByHash_sortByHash _).sort_eq h.inputs hinputs,
    (sortsByHash_sortByHash _).sort_eq h.outputs houtputs,
    (sortsByHash_sortByHash _).sort_eq h.kernels hkernels]

/-- `Aggregate` puts transactions together under the sum of their offsets. -/
theorem aggregate_eq_combined (hne : transactions ≠ [])
    (h : ∀ tx ∈ transactions, tx.Canonical G) (hdiffer : HashesDiffer G transactions)
    {blinds : List B} (hblinds : transactions.map Transaction.offset = blinds.map O.factor) :
    aggregate G transactions = .ok (combined G (O.factor blinds.sum) transactions) := by
  rcases transactions with _ | ⟨tx, _ | ⟨tx', transactions⟩⟩
  · exact absurd rfl hne
  · have hoffset : tx.offset = O.factor blinds.sum := by
      obtain ⟨b, rfl⟩ : ∃ b, blinds = [b] := by
        refine List.length_eq_one_iff.1 ?_
        simpa using (congrArg List.length hblinds).symm
      rw [List.sum_singleton]
      exact (List.cons.inj hblinds).1
    rw [← hoffset, combined_singleton (h tx (List.mem_singleton_self tx)) hdiffer]
    rfl
  · rw [aggregate, hblinds, O.addBlindingFactors]
    · rfl
    · rintro tx'' ⟨⟩

/-- Elements can be read from their bytes. -/
theorem OffsetGroup.hasLeftInverse : Function.HasLeftInverse O.factor :=
  Function.Injective.hasLeftInverse fun a b => O.factor_injective a b

/-- In whatever order: the offsets add up to the same. -/
theorem aggregate_perm (hne : transactions ≠ []) (h : Aggregable G transactions)
    (hdiffer : HashesDiffer G transactions) {blinds : List B}
    (hblinds : transactions.map Transaction.offset = blinds.map O.factor)
    (hperm : transactions'.Perm transactions) :
    aggregate G transactions' = .ok (combined G (O.factor blinds.sum) transactions) := by
  have hne' : transactions' ≠ [] := fun h0 => hne (List.nil_perm.1 (h0 ▸ hperm))
  obtain ⟨read, hread⟩ := O.hasLeftInverse
  have hmap := hperm.map Transaction.offset
  rw [hblinds] at hmap
  have hblinds' : transactions'.map Transaction.offset =
      ((transactions'.map Transaction.offset).map read).map O.factor := by
    rw [List.map_map]
    symm
    refine (List.map_congr_left fun b hb => ?_).trans (List.map_id _)
    obtain ⟨x, -, rfl⟩ := List.mem_map.1 (hmap.mem_iff.1 hb)
    exact congrArg O.factor (hread x)
  have hsum := (hmap.map read).sum_eq
  have hback : (blinds.map O.factor).map read = blinds := by
    rw [List.map_map, hread.comp_eq_id, List.map_id]
  rw [hback] at hsum
  rw [aggregate_eq_combined O hne' (h.perm hperm.symm).canonical (hdiffer.perm hperm.symm) hblinds',
    hsum, combined_perm (hdiffer.perm hperm.symm) hperm]

/-- The inputs and outputs that are left of a part, together with the other ones. -/
theorem spentBy_combined_perm (offset : BlindingFactor) :
    (spentBy (combined G offset sub :: rest)).Perm
      (CutThrough.cut TransactionInput.commitment TransactionOutput.commitment (spentBy sub)
        (createdBy sub) ++ spentBy rest) :=
  ((sortsByHash_sortByHash _).perm _).append_right _

theorem createdBy_combined_perm (offset : BlindingFactor) :
    (createdBy (combined G offset sub :: rest)).Perm
      (CutThrough.cut TransactionOutput.commitment TransactionInput.commitment (createdBy sub)
        (spentBy sub) ++ createdBy rest) :=
  ((sortsByHash_sortByHash _).perm _).append_right _

theorem signedBy_combined_perm (offset : BlindingFactor) :
    (signedBy (combined G offset sub :: rest)).Perm (signedBy (sub ++ rest)) := by
  rw [signedBy_append]
  exact ((sortsByHash_sortByHash _).perm _).append_right _

theorem HashesDiffer.combined_cons (h : HashesDiffer G (sub ++ rest)) (offset : BlindingFactor) :
    HashesDiffer G (combined G offset sub :: rest) := by
  refine h.subset (fun i hi => ?_) (fun o ho => ?_)
    (fun k hk => (signedBy_combined_perm offset).mem_iff.1 hk)
  · rw [spentBy_append]
    have hi' := (spentBy_combined_perm offset).mem_iff.1 hi
    exact (CutThrough.cut_sublist.append_right _).subset hi'
  · rw [createdBy_append]
    have ho' := (createdBy_combined_perm offset).mem_iff.1 ho
    exact (CutThrough.cut_sublist.append_right _).subset ho'

theorem Aggregable.combined_cons (h : Aggregable G (sub ++ rest)) (offset : BlindingFactor) :
    Aggregable G (combined G offset sub :: rest) where
  canonical tx htx := by
    rcases List.mem_cons.1 htx with rfl | htx
    · exact canonical_combined offset
    · exact h.canonical tx (List.mem_append_right _ htx)
  inputs_nodup := by
    have hnodup := h.inputs_nodup
    rw [spentBy_append] at hnodup
    exact ((spentBy_combined_perm offset).map _).nodup_iff.2
      (hnodup.sublist ((CutThrough.cut_sublist.append_right _).map _))
  outputs_nodup := by
    have hnodup := h.outputs_nodup
    rw [createdBy_append] at hnodup
    exact ((createdBy_combined_perm offset).map _).nodup_iff.2
      (hnodup.sublist ((CutThrough.cut_sublist.append_right _).map _))

/-- **A part may be put together first.** -/
theorem combined_combined (h : Aggregable G (sub ++ rest)) (hdiffer : HashesDiffer G (sub ++ rest))
    (offset offset' : BlindingFactor) :
    combined G offset (combined G offset' sub :: rest) = combined G offset (sub ++ rest) := by
  have hin := h.inputs_nodup
  have hout := h.outputs_nodup
  rw [spentBy_append] at hin
  rw [createdBy_append] at hout
  have hi := @spentBy_combined_perm G sub rest offset'
  have ho := @createdBy_combined_perm G sub rest offset'
  refine combined_congr (hdiffer.combined_cons offset') ?_ ?_ (signedBy_combined_perm offset')
    offset
  · refine (CutThrough.cut_perm hi ho).trans (.of_eq ?_)
    rw [CutThrough.cut_append hin, performCutThrough_eq_cut, spentBy_append, createdBy_append]
  · refine (CutThrough.cut_perm ho hi).trans (.of_eq ?_)
    rw [CutThrough.cut_append hout, performCutThrough_eq_cut, spentBy_append, createdBy_append]

end Combine

/-! ### The laws -/

section Laws

variable {G : Global} {A B : Type} [AddCommGroup A] [AddCommGroup B]

/-- **The laws of aggregation.** The aggregate of transactions that spend and create every
commitment once spends nothing it creates; it creates and spends the same sum, with all kernels,
under the sum of the offsets; it does not depend on the order; and it is the same when some of
the transactions are put together first. -/
theorem aggregate_laws (value : Commitment → A) (O : OffsetGroup G B)
    (transactions : List Transaction) (blind : Transaction → B) (hne : transactions ≠ [])
    (h : Aggregable G transactions) (hdiffer : HashesDiffer G transactions)
    (hblind : ∀ tx ∈ transactions, tx.offset = O.factor (blind tx)) :
    ∃ tx, aggregate G transactions = .ok tx ∧
      (∀ i ∈ tx.body.inputs, ∀ o ∈ tx.body.outputs, i.commitment ≠ o.commitment) ∧
      (tx.body.outputs.map fun o => value o.commitment).sum -
          (tx.body.inputs.map fun i => value i.commitment).sum =
        ((createdBy transactions).map fun o => value o.commitment).sum -
          ((spentBy transactions).map fun i => value i.commitment).sum ∧
      tx.body.kernels.Perm (signedBy transactions) ∧
      tx.offset = O.factor (transactions.map blind).sum ∧
      (∀ transactions', transactions'.Perm transactions →
        aggregate G transactions' = .ok tx) ∧
      ∀ sub rest, (sub ++ rest).Perm transactions → sub ≠ [] →
        ∃ part, aggregate G sub = .ok part ∧
          ∀ l, l.Perm (part :: rest) → aggregate G l = .ok tx := by
  have hmap : ∀ l : List Transaction, (∀ tx ∈ l, tx ∈ transactions) →
      l.map Transaction.offset = (l.map blind).map O.factor := by
    intro l hl
    rw [List.map_map]
    exact List.map_congr_left fun tx htx => hblind tx (hl tx htx)
  refine ⟨combined G (O.factor (transactions.map blind).sum) transactions,
    aggregate_eq_combined O hne h.canonical hdiffer (hmap _ fun _ htx => htx),
    (canonical_combined _).disjoint, ?_, (sortsByHash_sortByHash _).perm _, rfl, ?_, ?_⟩
  · have hout := (((sortsByHash_sortByHash (TransactionOutput.getHash G)).perm (performCutThrough
      (spentBy transactions) (createdBy transactions)).2).map fun o => value o.commitment).sum_eq
    have hin := (((sortsByHash_sortByHash (TransactionInput.getHash G)).perm (performCutThrough
      (spentBy transactions) (createdBy transactions)).1).map fun i => value i.commitment).sum_eq
    exact (congrArg₂ _ hout hin).trans
      (CutThrough.sum_sub_sum value h.inputs_nodup h.outputs_nodup)
  · intro transactions' hperm
    exact aggregate_perm O hne h hdiffer (hmap _ fun _ htx => htx) hperm
  · intro sub rest hperm hsub
    have h' := h.perm hperm.symm
    have hdiffer' := hdiffer.perm hperm.symm
    have hpart := aggregate_eq_combined O hsub h'.left.canonical hdiffer'.left
      (hmap sub fun tx htx => hperm.mem_iff.1 (List.mem_append_left _ htx))
    refine ⟨_, hpart, fun l hl => ?_⟩
    have hblinds : (combined G (O.factor (sub.map blind).sum) sub :: rest).map Transaction.offset =
        ((sub.map blind).sum :: rest.map blind).map O.factor := by
      rw [List.map_cons, List.map_cons,
        hmap rest fun tx htx => hperm.mem_iff.1 (List.mem_append_right _ htx)]
      rfl
    rw [aggregate_perm O (List.cons_ne_nil _ _) (h'.combined_cons _) (hdiffer'.combined_cons _)
        hblinds hl,
      combined_combined h' hdiffer', List.sum_cons, ← List.sum_append, ← List.map_append,
      (hperm.map blind).sum_eq, combined_perm hdiffer' hperm]

end Laws

/-! ### A chain of two transactions -/

theorem hashesDiffer_of_injective {G : Global} (hG : G.InjectiveOnBytes)
    {transactions : List Transaction} (h : Aggregable G transactions) :
    HashesDiffer G transactions where
  inputs _ ha _ hb hab :=
    List.inj_on_of_nodup_map h.inputs_nodup ha hb (CBigInteger.ext_bytes (hG _ _ hab))
  outputs _ ha _ hb hab :=
    List.inj_on_of_nodup_map h.outputs_nodup ha hb (OutputIdentifier.mk.inj
      (OutputIdentifier.serialize_injective (hG _ _ hab))).2
  kernels _ _ _ _ hab := TransactionKernel.serialize_injective (hG _ _ hab)

section SmallOffsets

open SmallNet

/-- The number of blinding factors. -/
def blindModulus : ℕ := 256 ^ 32

instance neZero_blindModulus : NeZero blindModulus := ⟨by decide⟩

theorem number_scalar (n : ℕ) : number (scalar n) = n % blindModulus :=
  beNat_beBytes 32 n

theorem scalar_mod (n : ℕ) : scalar (n % blindModulus) = scalar n := by
  refine CBigInteger.ext_bytes ?_
  have h := beBytes_beNat (beBytes 32 n)
  rw [length_beBytes, beNat_beBytes] at h
  exact h

/-- **The blinding factors of the small network are a group.** -/
def smallOffsets : OffsetGroup smallWalletNet (ZMod blindModulus) where
  factor b := scalar b.val
  factor_injective := by
    intro a b hab
    have h := congrArg number hab
    rw [number_scalar, number_scalar, Nat.mod_eq_of_lt (ZMod.val_lt a),
      Nat.mod_eq_of_lt (ZMod.val_lt b)] at h
    exact ZMod.val_injective _ h
  addBlindingFactors := by
    intro blinds
    have hnumbers : (blinds.map fun b => scalar b.val).map number = blinds.map ZMod.val := by
      rw [List.map_map]
      refine List.map_congr_left fun b _ => ?_
      exact (number_scalar b.val).trans (Nat.mod_eq_of_lt (ZMod.val_lt b))
    have hsum : blinds.sum.val = (blinds.map ZMod.val).sum % blindModulus := by
      rw [← ZMod.val_natCast, Nat.cast_list_sum, List.map_map]
      congr 2
      exact ((List.map_congr_left fun b _ => ZMod.natCast_zmod_val b).trans (List.map_id _)).symm
    show some (scalar _) = _
    rw [hnumbers, hsum, scalar_mod]
    rfl

/-- A coin. -/
def linkOutput (n : ℕ) : TransactionOutput :=
  ⟨.default, commitment n, rangeProof⟩

/-- A kernel. -/
def linkKernel (n : ℕ) : TransactionKernel :=
  ⟨.defaultKernel, .zero, 0, commitment n, signature⟩

/-- A coin becomes another one. -/
def link (n : ℕ) : Transaction where
  offset := scalar n
  body := ⟨[⟨.default, commitment n⟩], [linkOutput (n + 1)], [linkKernel n]⟩

theorem aggregable_links : Aggregable smallWalletNet [link 1, link 2] where
  canonical tx htx := by
    have hcanonical : ∀ n, commitment n ≠ commitment (n + 1) → (link n).Canonical smallWalletNet :=
      fun n hn => ⟨List.pairwise_singleton _ _, List.pairwise_singleton _ _,
        List.pairwise_singleton _ _, fun i hi o ho => by
          obtain rfl := List.mem_singleton.1 hi
          obtain rfl := List.mem_singleton.1 ho
          exact hn⟩
    simp only [List.mem_cons, List.not_mem_nil, or_false] at htx
    rcases htx with rfl | rfl
    · exact hcanonical 1 (by decide)
    · exact hcanonical 2 (by decide)
  inputs_nodup := by
    show [commitment 1, commitment 2].Nodup
    decide
  outputs_nodup := by
    show [commitment 2, commitment 3].Nodup
    decide

theorem injectiveOnBytes_smallWalletNet : smallWalletNet.InjectiveOnBytes :=
  injectiveOnBytes .mainnet

theorem offset_link (n : ℕ) : (link n).offset = smallOffsets.factor (n : ZMod blindModulus) := by
  show scalar n = scalar (n : ZMod blindModulus).val
  rw [ZMod.val_natCast, scalar_mod]

/-- What is created by the one is spent by the other, and the offsets are added. -/
theorem aggregate_laws_links :
    ∃ tx, aggregate smallWalletNet [link 1, link 2] = .ok tx ∧
      aggregate smallWalletNet [link 2, link 1] = .ok tx ∧
      tx.offset = smallOffsets.factor 3 := by
  obtain ⟨tx, h, -, -, -, hoffset, hperm, -⟩ := aggregate_laws (A := ZMod blindModulus)
    (fun _ => 0) smallOffsets [link 1, link 2]
    (fun tx => if tx = link 1 then 1 else 2) (List.cons_ne_nil _ _) aggregable_links
    (hashesDiffer_of_injective injectiveOnBytes_smallWalletNet aggregable_links) (by
      intro tx htx
      simp only [List.mem_cons, List.not_mem_nil, or_false] at htx
      rcases htx with rfl | rfl
      · rw [if_pos rfl]
        exact offset_link 1
      · rw [if_neg (by decide +kernel)]
        exact offset_link 2)
  refine ⟨tx, h, hperm _ (List.Perm.swap _ _ _), hoffset.trans (congrArg _ ?_)⟩
  rw [List.map_cons, List.map_cons, if_pos rfl, if_neg (by decide +kernel)]
  norm_num

end SmallOffsets

end GrinPlusPlus
