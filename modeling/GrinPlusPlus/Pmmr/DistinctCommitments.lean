import GrinPlusPlus.Pmmr.Rewind
import Mathlib.Data.List.Chain

/-!
# Which commitments an accepted body repeats

Three notions of sameness meet when a body is validated and applied. `TxBodyValidator` sorts by
hashes and compares neighbours: inputs by their features *and* their commitment, outputs by the
hash of both. Cut-through compares commitments. `TxHashSet::ApplyBlock` looks a commitment up, and
asserts that there is an unspent output at the position it finds; in a build without assertions it
goes on with a null pointer.

The features of an input are whatever the peer sent, so the first notion is finer than the last:
two inputs that name one output with different features are no duplicates to the validator. The
main result, `GrinPlusPlus.TxBodyValidator.distinct_iff`, is that this is the only gap.
-/

namespace GrinPlusPlus

open Exec

/-! ### Neighbours of a sorted list -/

theorem isSorted_iff {α : Type} {getHash : α → Hash} {values : List α} :
    isSorted getHash values = true ↔ values.IsChain fun a b => ¬getHash b < getHash a := by
  induction values with
  | nil => simp [isSorted]
  | cons a values ih =>
    cases values with
    | nil => simp [isSorted]
    | cons b values =>
      rw [List.isChain_cons_cons, ← ih]
      simp [isSorted]

theorem hasDuplicate_eq_false_iff {α : Type} {eq : α → α → Bool} {values : List α} :
    hasDuplicate eq values = false ↔ values.IsChain fun a b => eq b a = false := by
  induction values with
  | nil => simp [hasDuplicate]
  | cons a values ih =>
    cases values with
    | nil => simp [hasDuplicate]
    | cons b values =>
      rw [List.isChain_cons_cons, ← ih]
      simp [hasDuplicate]

/-- **Comparing neighbours is enough** when values with the same hash count as equal and values
with the same key have the same hash: the hashes increase, so that no key occurs twice. -/
theorem nodup_map_of_sorted {α β : Type} {getHash : α → Hash} {eq : α → α → Bool} {key : α → β}
    {values : List α} (hsorted : isSorted getHash values = true)
    (hduplicate : hasDuplicate eq values = false)
    (heq : ∀ a ∈ values, ∀ b ∈ values, getHash a = getHash b → eq b a = true)
    (hkey : ∀ a ∈ values, ∀ b ∈ values, key a = key b → getHash a = getHash b) :
    (values.map key).Nodup := by
  rw [isSorted_iff] at hsorted
  rw [hasDuplicate_eq_false_iff] at hduplicate
  have hboth : values.IsChain fun a b => ¬getHash b < getHash a ∧ eq b a = false := by
    clear heq hkey
    induction hsorted with
    | nil => exact .nil
    | singleton a => exact .singleton a
    | cons_cons hab _ ih =>
      rw [List.isChain_cons_cons] at hduplicate
      exact .cons_cons ⟨hab, hduplicate.1⟩ (ih hduplicate.2)
  have hlt : values.IsChain fun a b => (getHash a).value < (getHash b).value := by
    refine hboth.imp_of_mem_imp ?_
    rintro a b ha hb ⟨hle, hne⟩
    refine lt_of_le_of_ne (Nat.le_of_not_lt hle) fun hvalue => ?_
    have hhash : getHash a = getHash b := by
      generalize getHash a = x at hvalue ⊢
      generalize getHash b = y at hvalue ⊢
      cases x
      cases y
      exact congrArg Hash.mk hvalue
    rw [heq a ha b hb hhash] at hne
    cases hne
  have hpairwise := List.isChain_iff_pairwise.mp hlt
  refine List.pairwise_map.mpr (hpairwise.imp_of_mem ?_)
  rintro a b ha hb hab hsame
  rw [hkey a ha b hb hsame] at hab
  exact Nat.lt_irrefl _ hab

/-! ### Bodies -/

namespace TxBodyValidator

variable {G : Global} {body : TransactionBody}

/-- No commitment occurs twice in the body. -/
structure DistinctCommitments (body : TransactionBody) : Prop where
  /-- No output is spent twice. -/
  inputs : (body.inputs.map TransactionInput.commitment).Nodup
  /-- No output is created twice. -/
  outputs : (body.outputs.map TransactionOutput.commitment).Nodup
  /-- No output is created and spent. -/
  disjoint : ∀ i ∈ body.inputs, ∀ o ∈ body.outputs, i.commitment ≠ o.commitment

/-- The features go with the commitment. -/
structure SameFeatures (body : TransactionBody) : Prop where
  /-- Inputs that name the same output claim the same features. -/
  inputs : ∀ i ∈ body.inputs, ∀ j ∈ body.inputs, i.commitment = j.commitment →
    i.features = j.features
  /-- Outputs with the same commitment have the same features. -/
  outputs : ∀ o ∈ body.outputs, ∀ p ∈ body.outputs, o.commitment = p.commitment →
    o.features = p.features

theorem of_require {c : Prop} [Decidable c] {e : Exc} (h : require c e = .ok ()) : c := by
  rw [require] at h
  split at h
  · assumption
  · cases h

theorem require_of {c : Prop} [Decidable c] (e : Exc) (h : c) : require c e = .ok () :=
  if_pos h

/-- What the validation establishes about inputs and outputs. -/
structure Checked (G : Global) (body : TransactionBody) : Prop where
  /-- The inputs are sorted. -/
  sortedInputs : isSorted (TransactionInput.getHash G) body.inputs = true
  /-- The outputs are sorted. -/
  sortedOutputs : isSorted (TransactionOutput.getHash G) body.outputs = true
  /-- No neighbouring inputs are equal. -/
  inputs : hasDuplicate (fun a b => decide (a = b)) body.inputs = false
  /-- No neighbouring outputs are equal. -/
  outputs : hasDuplicate (fun a b => decide (a.getHash G = b.getHash G)) body.outputs = false
  /-- Nothing that is spent is created. -/
  cutThrough : ¬∃ i ∈ body.inputs, i.commitment ∈ body.outputs.map TransactionOutput.commitment

theorem checked_of_validate (h : validate G body = .ok ()) : Checked G body := by
  obtain ⟨_, hsorted, h⟩ := of_bind_eq_ok h
  obtain ⟨_, hcut, -⟩ := of_bind_eq_ok h
  obtain ⟨_, hall, hsorted⟩ := of_bind_eq_ok hsorted
  obtain ⟨_, hinputs, houtputs⟩ := of_bind_eq_ok hsorted
  have hall := of_require hall
  rw [Bool.and_eq_true, Bool.and_eq_true] at hall
  refine ⟨hall.1.1, hall.1.2, ?_, ?_, of_require hcut⟩
  · simpa using of_require hinputs
  · simpa using of_require houtputs

/-- **The validator's comparison finds every repetition on which the features agree.** -/
theorem Checked.distinct (hG : G.InjectiveOnBytes) (h : Checked G body)
    (hfeatures : SameFeatures body) : DistinctCommitments body where
  inputs := by
    refine nodup_map_of_sorted h.sortedInputs h.inputs ?_ ?_
    · intro a ha b hb hhash
      have hcommitment : a.commitment = b.commitment := CBigInteger.ext_bytes (hG _ _ hhash)
      have hsame := hfeatures.inputs a ha b hb hcommitment
      cases a
      cases b
      cases hcommitment
      cases hsame
      exact decide_eq_true rfl
    · intro a _ b _ hcommitment
      rw [TransactionInput.getHash, TransactionInput.getHash, TransactionInput.serialize,
        TransactionInput.serialize, hcommitment]
  outputs := by
    refine nodup_map_of_sorted h.sortedOutputs h.outputs ?_ ?_
    · intro a _ b _ hhash
      exact decide_eq_true hhash.symm
    · intro a ha b hb hcommitment
      rw [TransactionOutput.getHash, TransactionOutput.getHash, OutputIdentifier.fromOutput,
        OutputIdentifier.fromOutput, hcommitment, hfeatures.outputs a ha b hb hcommitment]
  disjoint := by
    intro i hi o ho heq
    exact h.cutThrough ⟨i, hi, List.mem_map.mpr ⟨o, ho, heq.symm⟩⟩

/-- Without repetitions there is nothing for the features to disagree on. -/
theorem DistinctCommitments.sameFeatures (h : DistinctCommitments body) : SameFeatures body where
  inputs := by
    intro i hi j hj heq
    rw [List.inj_on_of_nodup_map h.inputs hi hj heq]
  outputs := by
    intro o ho p hp heq
    rw [List.inj_on_of_nodup_map h.outputs ho hp heq]

end TxBodyValidator

/-! ### Applying a block -/

/-- The position table maps exactly the unspent commitments, each to its leaf. -/
structure MapsUnspent (s : UtxoState) : Prop where
  /-- What is mapped is unspent. -/
  points : TxHashSet.PointsToUnspent s
  /-- What is unspent is mapped. -/
  maps : ∀ i o, s.txHashSet.outputPMMR.current.getAt i = some o →
    (s.blockDB.getOutputPosition o.commitment).isSome

section Defined

variable {σ α β : Type}

/-- The run does not end in undefined behaviour. -/
def Defined (x : Exec Exc σ α) (s : σ) : Prop :=
  Holds x s (fun _ _ => True) fun e _ => e ≠ .undefined

theorem Defined.ne {x : Exec Exc σ α} {s : σ} (h : Defined x s) :
    (run x s).1 ≠ .error .undefined := by
  rw [Defined, holds_iff] at h
  rcases hrun : run x s with ⟨e | a, t⟩
  · rintro ⟨⟩
    exact h.2 _ t hrun rfl
  · rintro ⟨⟩

theorem defined_pure (a : α) (s : σ) : Defined (pure a : Exec Exc σ α) s :=
  trivial

/-- A sequence is defined when what follows each outcome is. -/
theorem defined_bind {x : Exec Exc σ α} {f : α → Exec Exc σ β} {s : σ} (hx : Defined x s)
    (hf : ∀ a t, run x s = (.ok a, t) → Defined (f a) t) : Defined (x >>= f) s := by
  rw [Defined, holds_iff] at hx
  rw [Defined, holds_bind, holds_iff]
  exact ⟨hf, hx.2⟩

theorem defined_update {f : σ → Except Exc σ} (hf : ∀ s, f s ≠ .error .undefined) (s : σ) :
    Defined (update f) s := by
  rw [Defined, holds_iff]
  refine ⟨fun _ _ _ => trivial, ?_⟩
  rintro e t hrun rfl
  rw [update, run_ofRun] at hrun
  rcases hs : f s with e | s'
  · rw [hs] at hrun
    cases hrun
    exact hf s hs
  · rw [hs] at hrun
    cases hrun

theorem defined_forM {f : β → Exec Exc σ Unit} (hf : ∀ b s, Defined (f b) s) (l : List β) (s : σ) :
    Defined (l.forM f) s := by
  have h := holds_forM (f := f) (I := fun _ _ => True) (E := fun e _ => e ≠ Exc.undefined) l
    (s := s) trivial fun b _ t _ => hf b t
  exact h

theorem bind_ne_undefined {x : Except Exc α} {f : α → Except Exc β} (hx : x ≠ .error .undefined)
    (hf : ∀ a, f a ≠ .error .undefined) : (x >>= f) ≠ .error .undefined := by
  rcases x with e | a
  · intro h
    exact hx (congrArg Except.error (Except.error.inj h))
  · exact hf a

end Defined

namespace MMRHashUtil

variable {G : Global}

theorem getDataAt_ne_undefined {α : Type} (file : List α) (position : ℕ) :
    getDataAt file position ≠ .error .undefined := by
  rw [getDataAt]
  rcases file[position]? with _ | a
  · rintro ⟨⟩
  · rintro ⟨⟩

theorem getHashAt_ne_undefined (file : List Hash) (position : ℕ) (pruneList : Option PruneList) :
    getHashAt file position pruneList ≠ .error .undefined := by
  rcases pruneList with _ | l
  · exact getDataAt_ne_undefined file position
  · rw [getHashAt]
    split
    · rintro ⟨⟩
    · exact getDataAt_ne_undefined file _

/-- A file of hashes that is too short throws. -/
theorem addHashes_ne_undefined (file : List Hash) (leaf : List UInt8)
    (pruneList : Option PruneList) : addHashes G file leaf pruneList ≠ .error .undefined := by
  have hparents : ∀ (fuel : ℕ) (file : List Hash) (position : ℕ),
      addParents G pruneList fuel file position ≠ .error .undefined := by
    intro fuel
    induction fuel with
    | zero => rintro file position ⟨⟩
    | succ fuel ih =>
      intro file position
      rw [addParents]
      split
      · rintro ⟨⟩
      · refine bind_ne_undefined (getHashAt_ne_undefined _ _ _) fun left => ?_
        exact bind_ne_undefined (getHashAt_ne_undefined _ _ _) fun right => ih _ _
  exact hparents _ _ _

end MMRHashUtil

namespace TxHashSet

open MMRHashUtil

variable {G : Global} {s : UtxoState}

theorem defined_updateOutputPMMR {f : PruneableFiles OutputIdentifier →
    Except Exc (PruneableFiles OutputIdentifier)} (hf : ∀ files, f files ≠ .error .undefined)
    (s : UtxoState) : Defined (updateOutputPMMR f) s := by
  refine defined_update (fun s => bind_ne_undefined (hf _) fun files => ?_) s
  rintro ⟨⟩

theorem defined_updateRangeProofPMMR {f : PruneableFiles RangeProof →
    Except Exc (PruneableFiles RangeProof)} (hf : ∀ files, f files ≠ .error .undefined)
    (s : UtxoState) : Defined (updateRangeProofPMMR f) s := by
  refine defined_update (fun s => bind_ne_undefined (hf _) fun files => ?_) s
  rintro ⟨⟩

theorem remove_ne_undefined {α : Type} (i : ℕ) (files : PruneableFiles α) :
    files.remove i ≠ .error .undefined := by
  rw [PruneableFiles.remove]
  split
  · rintro ⟨⟩
  · rintro ⟨⟩

theorem append_ne_undefined {α : Type} (serialized : α → List UInt8) (object : α)
    (files : PruneableFiles α) : files.append G serialized object ≠ .error .undefined := by
  refine bind_ne_undefined (addHashes_ne_undefined _ _ _) fun hashes => ?_
  rintro ⟨⟩

/-- **The assertion of the first loop**: while no output is spent twice and every position is
that of an unspent output with the commitment, the output that is looked up is there. -/
theorem defined_pruneInputs (maximumBlockHeight : ℕ) {inputs : List TransactionInput}
    (hnodup : (inputs.map TransactionInput.commitment).Nodup)
    (hunspent : ∀ i ∈ inputs, ∀ l, s.blockDB.getOutputPosition i.commitment = some l →
      ∃ o, s.txHashSet.outputPMMR.current.getAt l.leafIndex = some o ∧
        o.commitment = i.commitment)
    (spent : List SpentOutput) : Defined (pruneInputs maximumBlockHeight inputs spent) s := by
  induction inputs generalizing s spent with
  | nil => exact defined_pure _ s
  | cons input inputs ih =>
    rw [List.map_cons, List.nodup_cons] at hnodup
    rw [List.forall_mem_cons] at hunspent
    rw [pruneInputs]
    refine defined_bind (x := get) trivial ?_
    rintro _ _ ⟨⟩
    rcases hposition : s.blockDB.getOutputPosition input.commitment with _ | position
    · exact defined_pure _ s
    · obtain ⟨output, houtput, hcommitment⟩ := hunspent.1 position hposition
      dsimp only
      rw [houtput]
      dsimp only
      split
      · exact defined_pure _ s
      · refine defined_bind (defined_updateOutputPMMR (remove_ne_undefined _) s) ?_
        intro _ s₁ h₁
        refine defined_bind (defined_updateRangeProofPMMR (remove_ne_undefined _) s₁) ?_
        intro _ s₂ h₂
        obtain ⟨files, hfiles, rfl⟩ := of_run_updateOutputPMMR h₁
        obtain ⟨proofs, hproofs, rfl⟩ := of_run_updateRangeProofPMMR h₂
        obtain ⟨-, rfl⟩ := PruneableFiles.of_remove hfiles
        refine ih hnodup.2 ?_ _
        -- Another commitment has another leaf, which is not the one that was cleared.
        intro i hi l hl
        obtain ⟨o, ho, ho'⟩ := hunspent.2 i hi l hl
        refine ⟨o, (getAt_remove_of_ne ?_).trans ho, ho'⟩
        intro heq
        rw [heq, houtput] at ho
        cases ho
        exact hnodup.1 (List.mem_map.mpr ⟨i, hi, ho'.symm.trans hcommitment⟩)

theorem defined_appendOutputs (height : ℕ) (outputs : List TransactionOutput) (s : UtxoState) :
    Defined (appendOutputs G height outputs) s := by
  induction outputs generalizing s with
  | nil => exact defined_pure _ s
  | cons output outputs ih =>
    rw [appendOutputs]
    refine defined_bind (x := get) trivial ?_
    rintro _ _ ⟨⟩
    dsimp only
    split_ifs
    · exact defined_pure _ s
    · refine defined_bind (defined_updateOutputPMMR (append_ne_undefined _ _) s) fun _ s₁ _ => ?_
      refine defined_bind (defined_updateRangeProofPMMR (append_ne_undefined _ _) s₁) ?_
      intro _ s₂ _
      exact defined_bind trivial fun _ s₃ _ => ih s₃

theorem defined_applyKernels (kernels : List TransactionKernel) (s : UtxoState) :
    Defined (applyKernels G kernels) s := by
  refine defined_forM (fun kernel s => ?_) kernels s
  refine defined_update (fun s => bind_ne_undefined ?_ fun files => ?_) s
  · refine bind_ne_undefined (addHashes_ne_undefined _ _ _) fun hashes => ?_
    rintro ⟨⟩
  · rintro ⟨⟩

/-- **Applying a block never dereferences a null output** when no commitment is spent twice. -/
theorem defined_applyBlock {block : FullBlock}
    (hnodup : (block.body.inputs.map TransactionInput.commitment).Nodup)
    (hmaps : MapsUnspent s) : Defined (applyBlock G block) s := by
  rw [applyBlock]
  refine defined_bind (defined_pruneInputs _ hnodup (fun i _ l hl => ?_) _) ?_
  · exact hmaps.points i.commitment l hl
  · rintro (_ | spentPositions) s₁ -
    · exact defined_pure _ s₁
    · refine defined_bind trivial fun _ s₂ _ => ?_
      refine defined_bind (defined_appendOutputs _ _ s₂) ?_
      intro appended s₃ _
      split
      · refine defined_bind trivial fun _ s₄ _ => ?_
        refine defined_bind (defined_applyKernels _ s₄) fun _ s₅ _ => ?_
        exact defined_bind trivial fun _ s₆ _ => defined_pure _ s₆
      · exact defined_pure _ s₃

end TxHashSet

/-! ### Accepted bodies -/

namespace TxBodyValidator

open TxHashSet SmallNet

variable {G : Global} {body : TransactionBody}

/-- Whatever the header and the state, applying a block with the body does not get to the
assertion with a null output. -/
def NeverNull (G : Global) (body : TransactionBody) : Prop :=
  ∀ (s : UtxoState) (header : BlockHeader), MapsUnspent s →
    (run (applyBlock G ⟨header, body⟩) s).1 ≠ .error .undefined

/-- **Acceptance rules out every repetition but one**: the commitments of an accepted body are
distinct, and applying it is defined, exactly when no two inputs and no two outputs have the same
commitment with different features. -/
theorem distinct_iff (hG : G.InjectiveOnBytes) (h : validate G body = .ok ()) :
    DistinctCommitments body ∧ NeverNull G body ↔ SameFeatures body := by
  constructor
  · rintro ⟨hdistinct, -⟩
    exact hdistinct.sameFeatures
  · intro hfeatures
    have hdistinct := (checked_of_validate h).distinct hG hfeatures
    exact ⟨hdistinct, fun s header hmaps => (defined_applyBlock hdistinct.inputs hmaps).ne⟩

theorem distinct_iff_coinbaseBody :
    DistinctCommitments (coinbaseBody 1) ∧ NeverNull (smallNet .mainnet) (coinbaseBody 1) := by
  have hvalid : validate (smallNet .mainnet) (coinbaseBody 1) = .ok () := by rfl
  refine (distinct_iff (injectiveOnBytes .mainnet) hvalid).mpr ⟨?_, ?_⟩
  · rintro i hi
    cases hi
  · intro o ho p hp _
    rw [List.mem_singleton.mp ho, List.mem_singleton.mp hp]

/-- A body that spends one output twice, once as a coinbase output. -/
def doubleSpend : TransactionBody where
  inputs := [⟨.default, plainCommitment 0⟩, ⟨.coinbaseOutput, plainCommitment 0⟩]
  outputs := []
  kernels := []

theorem mapsUnspent_plainState {header : BlockHeader} : MapsUnspent (plainState 1 header) where
  points := pointsToUnspent_plainState
  maps := by
    intro i o ho
    have hi : i < 1 := by
      rw [PruneableFiles.getAt, shape_plainOutputs.isUnpruned_eq] at ho
      split at ho
      · next hset => exact shape_plainOutputs.leafSet_lt i hset
      · cases ho
    rw [getAt_plainState hi] at ho
    cases ho
    rw [getOutputPosition_plainState (by decide) hi]
    rfl

/-- The body is accepted, and where the output is unspent, applying it dereferences a null
pointer. -/
theorem not_neverNull_doubleSpend :
    validate (smallNet .mainnet) doubleSpend = .ok () ∧ ¬DistinctCommitments doubleSpend ∧
      ∃ s header, MapsUnspent s ∧
        (run (applyBlock (smallNet .mainnet) ⟨header, doubleSpend⟩) s).1 = .error .undefined := by
  refine ⟨by decide +kernel, ?_, plainState 1 genesisHeader, genesisHeader,
    mapsUnspent_plainState, ?_⟩
  · intro h
    have hnodup := h.inputs
    simp [doubleSpend] at hnodup
  · rfl

end TxBodyValidator

end GrinPlusPlus
