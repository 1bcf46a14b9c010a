import GrinPlusPlus.Core.WireCodec
import GrinPlusPlus.Pmmr.DistinctCommitments

/-!
# The spent positions in the database

`TxHashSet::ApplyBlock` stores where the inputs of a block were, so that a rewind can put them
back. The list is written as a version byte, its length **in 16 bits**, and the entries; the
reader takes as many entries as the length says.

`GrinPlusPlus.SpentOutputs.run_deserialize` compares the two: what is read is the part of the
list that the length in 16 bits covers, which is what the table of
`GrinPlusPlus.BlockDB.addSpentPositions` holds. Whether that is the whole list is a matter of the
number of inputs, and the weight rule does not bound it before version 5 of the header, where an
input counts *against* the weight. `GrinPlusPlus.TxHashSet.survives_iff` draws the line.
-/

namespace GrinPlusPlus

open PostOrder Exec ByteBuffer

/-! ### The form in the table -/

namespace OutputLocation

/-- `OutputLocation::GetPosition`. -/
def getPosition (l : OutputLocation) : ℕ :=
  leafPosition l.leafIndex

/-- `OutputLocation::Serialize`. -/
def serialize (l : OutputLocation) : List UInt8 :=
  beBytes 8 l.getPosition ++ beBytes 8 l.blockHeight

/-- `OutputLocation::Deserialize`. -/
def deserialize : ByteBuffer OutputLocation := do
  let position ← readU64
  let blockHeight ← readU64
  pure ⟨Index.calculateLeafIndex position.toNat, blockHeight.toNat⟩

/-- The position and the height are words of 64 bits, as they are in the source. -/
structure Fits (l : OutputLocation) : Prop where
  /-- The position. -/
  position : l.getPosition < 2 ^ 64
  /-- The height. -/
  blockHeight : l.blockHeight < 2 ^ 64

end OutputLocation

namespace SpentOutput

/-- `SpentOutput::Serialize`. -/
def serialize (o : SpentOutput) : List UInt8 :=
  o.commitment.bytes ++ o.location.serialize

/-- `SpentOutput::Deserialize`. -/
def deserialize : ByteBuffer SpentOutput := do
  let commitment ← readBigInteger 33
  let location ← OutputLocation.deserialize
  pure ⟨commitment, location⟩

end SpentOutput

namespace SpentOutputs

/-- `SpentOutputs::Serialize`: the length is cast to 16 bits. -/
def serialize (spentOutputs : List SpentOutput) : List UInt8 :=
  0 :: (beBytes 2 spentOutputs.length ++ spentOutputs.flatMap SpentOutput.serialize)

/-- `SpentOutputs::Deserialize`; the assertion on the version is compiled out. -/
def deserialize : ByteBuffer (List SpentOutput) := do
  let _version ← readU8
  let numOutputs ← readU16
  readMany SpentOutput.deserialize numOutputs.toNat

/-- One step of `SpentOutputs::BuildMap`: `insert` keeps what is there. -/
def insert (map : Commitment → Option OutputLocation) (o : SpentOutput) :
    Commitment → Option OutputLocation :=
  if (map o.commitment).isSome then map
  else Function.update map o.commitment (some o.location)

/-- `SpentOutputs::BuildMap`. -/
def buildMap (spentOutputs : List SpentOutput) : Commitment → Option OutputLocation :=
  spentOutputs.foldl insert fun _ => none

end SpentOutputs

/-! ### What is read back -/

theorem OutputLocation.run_deserialize {l : OutputLocation} (h : l.Fits) (rest : List UInt8) :
    run OutputLocation.deserialize (l.serialize ++ rest) = (.ok l, rest) := by
  have hleaf : Index.calculateLeafIndex (UInt64.ofNat l.getPosition).toNat = l.leafIndex := by
    rw [UInt64.toNat_ofNat_of_lt' h.position, OutputLocation.getPosition, leafPosition,
      calculateLeafIndex_leafPos]
  have hheight : (UInt64.ofNat l.blockHeight).toNat = l.blockHeight :=
    UInt64.toNat_ofNat_of_lt' h.blockHeight
  rw [OutputLocation.deserialize, OutputLocation.serialize, List.append_assoc,
    run_bind_ok (run_readU64_of_lt h.position _),
    run_bind_ok (run_readU64_of_lt h.blockHeight _), run_pure, hleaf, hheight]

theorem SpentOutput.run_deserialize {o : SpentOutput} (h : o.location.Fits)
    (rest : List UInt8) :
    run SpentOutput.deserialize (o.serialize ++ rest) = (.ok o, rest) := by
  rw [SpentOutput.deserialize, SpentOutput.serialize, List.append_assoc,
    run_bind_ok (run_readBigInteger o.commitment _),
    run_bind_ok (OutputLocation.run_deserialize h rest), run_pure]

namespace SpentOutputs

/-- **The reader** finds as many entries as the length in 16 bits says. -/
theorem run_deserialize {spent : List SpentOutput} (h : ∀ o ∈ spent, o.location.Fits) :
    run SpentOutputs.deserialize (SpentOutputs.serialize spent) =
      (.ok (spent.take (spent.length % 2 ^ 16)),
        (spent.drop (spent.length % 2 ^ 16)).flatMap SpentOutput.serialize) := by
  have hcount : (UInt16.ofNat (spent.length % 2 ^ 16)).toNat =
      (spent.take (spent.length % 2 ^ 16)).length := by
    rw [List.length_take, Nat.min_eq_left (Nat.mod_le ..)]
    exact UInt16.toNat_ofNat_of_lt' (Nat.mod_lt _ (by decide))
  have hentries : ∀ o ∈ spent.take (spent.length % 2 ^ 16), ∀ rest,
      run SpentOutput.deserialize (o.serialize ++ rest) = (.ok o, rest) := fun o ho =>
    SpentOutput.run_deserialize (h o (List.mem_of_mem_take ho))
  have hread := run_readMany hentries
    ((spent.drop (spent.length % 2 ^ 16)).flatMap SpentOutput.serialize)
  rw [← List.flatMap_append, List.take_append_drop] at hread
  rw [SpentOutputs.deserialize, SpentOutputs.serialize, run_bind_ok (run_readU8 0 _),
    run_bind_ok (run_readU16 _ _), hcount]
  exact hread

/-- The map has the first entry for each commitment. -/
theorem foldl_insert (spent : List SpentOutput) (map : Commitment → Option OutputLocation)
    (c : Commitment) :
    spent.foldl insert map c =
      (map c).or ((spent.find? fun o => o.commitment = c).map SpentOutput.location) := by
  induction spent generalizing map with
  | nil => simp
  | cons o spent ih =>
    rw [List.foldl_cons, ih, List.find?_cons, insert]
    by_cases hc : o.commitment = c
    · subst hc
      rcases hmap : map o.commitment with _ | l
      · simp
      · simp [hmap]
    · split
      · simp [hc]
      · simp [hc, Function.update_of_ne (Ne.symm hc)]

theorem buildMap_eq (spent : List SpentOutput) (c : Commitment) :
    buildMap spent c = (spent.find? fun o => o.commitment = c).map SpentOutput.location := by
  rw [buildMap, foldl_insert, Option.none_or]

end SpentOutputs

/-! ### The line -/

namespace TxHashSet

variable {G : Global} {s : UtxoState} {block : FullBlock} {spent : List SpentOutput}

/-- `ApplyBlock` collects these spent positions for a block. -/
def Collects (G : Global) (s : UtxoState) (block : FullBlock) (spent : List SpentOutput) :
    Prop :=
  ∃ s', run (pruneInputs (Consensus.getMaxCoinbaseHeight G.env block.getHeight)
    block.body.inputs []) s = (.ok (some spent), s')

/-- **The spent positions survive storage**: the reader understands what was written, it is what
the table holds, and the map sends each input to its location and nothing else anywhere. -/
def Survives (G : Global) (s : UtxoState) (block : FullBlock) (spent : List SpentOutput) :
    Prop :=
  ∃ stored rest,
    run SpentOutputs.deserialize (SpentOutputs.serialize spent) = (.ok stored, rest) ∧
    (∀ db : BlockDB, (db.addSpentPositions (block.getHash G) spent).getSpentPositions
      (block.getHash G) = .ok stored) ∧
    ∀ c, SpentOutputs.buildMap stored c =
      if c ∈ spentCommitments block then s.blockDB.getOutputPosition c else none

/-- The entries of the position table are of words of 64 bits. -/
def PositionsFit (db : BlockDB) : Prop :=
  ∀ c l, db.getOutputPosition c = some l → l.Fits

/-- The map of collected entries sends each of their inputs to its location. -/
theorem buildMap_spentOutputs {inputs : List TransactionInput} {locations : List OutputLocation}
    {positions : Commitment → Option OutputLocation}
    (hfound : List.Forall₂ (fun i l => positions i.commitment = some l) inputs locations)
    (c : Commitment) :
    SpentOutputs.buildMap (spentOutputs inputs locations) c =
      if c ∈ inputs.map TransactionInput.commitment then positions c else none := by
  rw [SpentOutputs.buildMap_eq]
  induction hfound with
  | nil => rfl
  | @cons input location inputs locations hposition _ ih =>
    rw [spentOutputs, List.zipWith_cons_cons, List.find?_cons]
    by_cases hc : input.commitment = c
    · subst hc
      simp [hposition]
    · rw [decide_eq_false hc]
      refine ih.trans ?_
      simp [Ne.symm hc]

theorem getSpentPositions_addSpentPositions (db : BlockDB) (hash : Hash)
    (spent : List SpentOutput) :
    (db.addSpentPositions hash spent).getSpentPositions hash =
      .ok (spent.take (spent.length % 2 ^ 16)) := by
  simp only [BlockDB.addSpentPositions, BlockDB.getSpentPositions, BlockDB.writeTables_current,
    Function.update_self]
  rfl

theorem Collects.pruned (h : Collects G s block spent) :
    ∃ s' locations, Pruned s s' block.body.inputs locations ∧
      spent = spentOutputs block.body.inputs locations := by
  obtain ⟨s', hrun⟩ := h
  obtain ⟨locations, hpruned, rfl⟩ := of_run_pruneInputs hrun
  exact ⟨s', locations, hpruned, List.nil_append _⟩

/-- What survives is decided by the entries that the length in 16 bits covers. -/
theorem survives_iff_take (hspent : Collects G s block spent) (hfits : PositionsFit s.blockDB) :
    Survives G s block spent ↔
      ∀ c, SpentOutputs.buildMap (spent.take (spent.length % 2 ^ 16)) c =
        if c ∈ spentCommitments block then s.blockDB.getOutputPosition c else none := by
  obtain ⟨s', locations, hpruned, hcollected⟩ := hspent.pruned
  have hlocations : ∀ o ∈ spent, o.location.Fits := by
    rw [hcollected, spentOutputs]
    intro o ho
    obtain ⟨i, hi, rfl⟩ := List.getElem_of_mem ho
    rw [List.length_zipWith] at hi
    rw [List.getElem_zipWith]
    exact hfits _ _ ((List.forall₂_iff_get.mp hpruned.found).2 i (by omega) (by omega))
  have hread := SpentOutputs.run_deserialize hlocations
  constructor
  · rintro ⟨stored, rest, hstored, -, hmap⟩ c
    rw [hread] at hstored
    cases hstored
    exact hmap c
  · intro hmap
    exact ⟨_, _, hread, fun db => getSpentPositions_addSpentPositions .., hmap⟩

/-- From version 5 of the header on, the weight rule bounds the inputs. -/
theorem length_inputs_lt (hblock : BlockValidator.verifySelfConsistent G block = .ok ())
    (hversion : 5 ≤ Consensus.getHeaderVersion G.env block.getHeight) :
    block.body.inputs.length < 2 ^ 16 := by
  obtain ⟨_, hweight, -⟩ := of_bind_eq_ok hblock
  have hle := TxBodyValidator.of_require hweight
  rw [TransactionBody.calcWeight, if_neg (Nat.not_lt.mpr hversion),
    Consensus.calculateWeightV5] at hle
  have hinput : Consensus.inputWeight = 1 := rfl
  have hmax : Consensus.maxBlockWeight = 40000 := rfl
  rw [hinput, hmax, Nat.mul_one] at hle
  omega

/-- **What the length covers is everything exactly when it fits**: past it the first input that
is left out is in no entry that is read. -/
theorem survives_iff_length (hspent : Collects G s block spent)
    (hfits : PositionsFit s.blockDB) :
    Survives G s block spent ↔ block.body.inputs.length < 2 ^ 16 := by
  rw [survives_iff_take hspent hfits]
  obtain ⟨s', locations, hpruned, rfl⟩ := hspent.pruned
  have hlength : (spentOutputs block.body.inputs locations).length =
      block.body.inputs.length := by
    rw [spentOutputs, List.length_zipWith, ← hpruned.found.length_eq, Nat.min_self]
  have hmap : ∀ n c, SpentOutputs.buildMap
      ((spentOutputs block.body.inputs locations).take n) c =
        if c ∈ (block.body.inputs.take n).map TransactionInput.commitment then
          s.blockDB.getOutputPosition c else none := fun n c => by
    rw [spentOutputs, List.take_zipWith]
    exact buildMap_spentOutputs (List.forall₂_take n hpruned.found) c
  rw [hlength]
  constructor
  · intro hall
    by_contra hlt
    have hn : block.body.inputs.length % 2 ^ 16 < block.body.inputs.length :=
      (Nat.mod_lt _ (by decide)).trans_le (Nat.not_lt.mp hlt)
    generalize block.body.inputs.length % 2 ^ 16 = n at hall hn
    -- The first input that the length leaves out.
    have hleft := hall (block.body.inputs.get ⟨n, hn⟩).commitment
    have hposition := (List.forall₂_iff_get.mp hpruned.found).2 n hn
      (hpruned.found.length_eq ▸ hn)
    have hnodup := nodup_commitments_of_found hpruned.found hpruned.nodup
    rw [hmap, if_neg, if_pos, hposition] at hleft
    · cases hleft
    · exact List.mem_map_of_mem (List.get_mem _ _)
    · intro hin
      rw [List.map_take] at hin
      obtain ⟨i, hi, heq⟩ := List.getElem_of_mem hin
      rw [List.length_take, List.length_map] at hi
      rw [List.getElem_take] at heq
      have hn' : n < (block.body.inputs.map TransactionInput.commitment).length := by
        rw [List.length_map]
        exact hn
      have hi' : i < (block.body.inputs.map TransactionInput.commitment).length := by
        omega
      have hsame : (block.body.inputs.map TransactionInput.commitment)[i] =
          (block.body.inputs.map TransactionInput.commitment)[n] :=
        heq.trans (List.getElem_map ..).symm
      have hindex := hnodup.getElem_inj_iff.mp hsame
      omega
  · intro hlt c
    rw [Nat.mod_eq_of_lt hlt, hmap, List.take_length]
    rfl

/-- **Spent positions survive storage exactly for fewer than 65536 inputs**, which is always so
from version 5 of the header on. -/
theorem survives_iff (hblock : BlockValidator.verifySelfConsistent G block = .ok ())
    (hspent : Collects G s block spent) (hfits : PositionsFit s.blockDB) :
    (Survives G s block spent ↔ block.body.inputs.length < 2 ^ 16) ∧
      (5 ≤ Consensus.getHeaderVersion G.env block.getHeight → Survives G s block spent) := by
  have hiff := survives_iff_length hspent hfits
  exact ⟨hiff, fun hversion => hiff.mpr (length_inputs_lt hblock hversion)⟩

/-! ### A block with too many inputs -/

section ManyInputs

open SmallNet

/-- A block that spends outputs of the first numbers and pays its reward. -/
def manyInputs (n : ℕ) : FullBlock where
  header := plainHeader 1 0 Hash.zero
  body := ⟨plainInputs n, [coinbaseOutput 1], [coinbaseKernel 1]⟩

/-- The hash of an input grows with its number. -/
theorem getHash_plainInput_lt {i j : ℕ} (hj : j < 65536) (h : i < j) :
    TransactionInput.getHash (smallNet .automatedTesting) ⟨.default, plainCommitment i⟩ <
      TransactionInput.getHash (smallNet .automatedTesting) ⟨.default, plainCommitment j⟩ := by
  change 3 * encode _ < 3 * encode _
  simp only [TransactionInput.serialize, plainCommitment, encode, List.foldr_cons,
    UInt8.toNat_ofNat']
  omega

variable {n : ℕ}

theorem pairwise_manyInputs (hn : n ≤ 65536) :
    (manyInputs n).body.inputs.Pairwise fun a b =>
      a.getHash (smallNet .automatedTesting) < b.getHash (smallNet .automatedTesting) := by
  refine List.pairwise_map.mpr (List.pairwise_lt_range.imp_of_mem ?_)
  rintro i j - hj hlt
  exact getHash_plainInput_lt ((List.mem_range.mp hj).trans_le hn) hlt

theorem verifyCoinbase_manyInputs :
    BlockValidator.verifyCoinbase (smallNet .automatedTesting) (manyInputs n) = .ok () := by
  have hreward : BlockValidator.verifyCoinbase (smallNet .automatedTesting)
      ⟨genesisHeader, coinbaseBody 1⟩ = .ok () := by decide +kernel
  exact hreward

theorem validate_manyInputs (hn : n ≤ 65536) :
    TxBodyValidator.validate (smallNet .automatedTesting) (manyInputs n).body = .ok () := by
  have hpairwise := pairwise_manyInputs hn
  have hsorted : isSorted (TransactionInput.getHash (smallNet .automatedTesting))
      (manyInputs n).body.inputs = true := by
    refine isSorted_iff.mpr (List.Pairwise.isChain (hpairwise.imp fun hab hba => ?_))
    exact Nat.lt_asymm hab hba
  have hdistinct : hasDuplicate (fun a b => decide (a = b)) (manyInputs n).body.inputs =
      false := by
    refine hasDuplicate_eq_false_iff.mpr (List.Pairwise.isChain (hpairwise.imp ?_))
    rintro a b hab
    refine decide_eq_false ?_
    rintro rfl
    exact Nat.lt_irrefl _ hab
  have hcut : ¬∃ i ∈ (manyInputs n).body.inputs,
      i.commitment ∈ (manyInputs n).body.outputs.map TransactionOutput.commitment := by
    rintro ⟨input, hinput, hcreated⟩
    obtain ⟨i, -, rfl⟩ := List.mem_map.mp hinput
    rw [manyInputs, List.map_singleton, List.mem_singleton] at hcreated
    -- From the third on the bytes of a plain commitment are zero, those of the reward are not.
    have hbyte := congrArg (fun c => c.bytes[28]?) hcreated
    have hreward : (coinbaseOutput 1).commitment.bytes[28]? = some 13 := by decide +kernel
    rw [hreward] at hbyte
    cases hbyte
  rw [TxBodyValidator.validate, TxBodyValidator.verifySorted, hsorted, hdistinct,
    TxBodyValidator.verifyCutThrough, TxBodyValidator.require_of _ hcut]
  rfl

theorem verifySelfConsistent_manyInputs (hn : n ≤ 65536) :
    BlockValidator.verifySelfConsistent (smallNet .automatedTesting) (manyInputs n) =
      .ok () := by
  have hweight : (manyInputs n).body.calcWeight .automatedTesting 1 ≤
      Consensus.maxBlockWeight := by
    have hmax : Consensus.maxBlockWeight = 40000 := rfl
    rw [TransactionBody.calcWeight, if_pos (by decide), Consensus.calculateWeightV4, hmax]
    simp only [manyInputs, plainInputs, List.length_map, List.length_range,
      List.length_singleton]
    omega
  rw [BlockValidator.verifySelfConsistent, BlockValidator.verifyWeight,
    TxBodyValidator.require_of _ (by exact hweight), BlockValidator.verifyBody,
    validate_manyInputs hn, verifyCoinbase_manyInputs]
  rfl

theorem collects_manyInputs (hn : n ≤ 65536) :
    Collects (smallNet .automatedTesting) (plainState n genesisHeader) (manyInputs n)
      (spentOutputs (plainInputs n) ((List.range n).map fun i => ⟨i, 0⟩)) :=
  run_pruneInputs_plainState _ hn

theorem positionsFit_plainState (hn : n ≤ 65536) :
    PositionsFit (plainState n genesisHeader).blockDB := by
  intro c l hc
  change ((List.range n).find? fun i => plainCommitment i = c).map _ = some l at hc
  rw [Option.map_eq_some_iff] at hc
  obtain ⟨i, hfind, rfl⟩ := hc
  have hi := List.mem_range.mp (List.mem_of_find?_eq_some hfind)
  have hleaf : leafPos i < 2 ^ 17 - 1 := leafPos_lt_of_lt (by omega)
  exact ⟨hleaf.trans (by decide), Nat.two_pow_pos 64⟩

/-- A block with a single input. -/
theorem survives_iff_singleInput :
    (Survives (smallNet .automatedTesting) (plainState 1 genesisHeader) (manyInputs 1)
      (spentOutputs (plainInputs 1) ((List.range 1).map fun i => ⟨i, 0⟩)) ↔
        (manyInputs 1).body.inputs.length < 2 ^ 16) ∧
      (5 ≤ Consensus.getHeaderVersion (smallNet .automatedTesting).env (manyInputs 1).getHeight →
        Survives (smallNet .automatedTesting) (plainState 1 genesisHeader) (manyInputs 1)
          (spentOutputs (plainInputs 1) ((List.range 1).map fun i => ⟨i, 0⟩))) :=
  survives_iff (verifySelfConsistent_manyInputs (by decide)) (collects_manyInputs (by decide))
    (positionsFit_plainState (by decide))

/-- **A block with 65536 inputs is self-consistent** before version 5 of the header, and none
of its spent positions is read back: its length is stored as zero. -/
theorem not_survives_manyInputs :
    ¬∀ (s : UtxoState) (block : FullBlock) (spent : List SpentOutput),
      BlockValidator.verifySelfConsistent (smallNet .automatedTesting) block = .ok () →
      Collects (smallNet .automatedTesting) s block spent → PositionsFit s.blockDB →
      Survives (smallNet .automatedTesting) s block spent := by
  intro h
  have hcollects := collects_manyInputs (le_refl 65536)
  have hfits := positionsFit_plainState (le_refl 65536)
  have hsurvives := h _ _ _ (verifySelfConsistent_manyInputs (le_refl 65536)) hcollects hfits
  have hlength := (survives_iff_length hcollects hfits).mp hsurvives
  simp [manyInputs, plainInputs] at hlength

end ManyInputs

end TxHashSet

end GrinPlusPlus
