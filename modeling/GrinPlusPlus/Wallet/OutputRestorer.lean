import GrinPlusPlus.BlockChain.SmallChain
import GrinPlusPlus.Lib.Paging
import GrinPlusPlus.Wallet.SmallWallet

/-!
# Finding the outputs of a wallet on the chain

`OutputRestorer::FindAndRewindOutputs`: the wallet reads the unspent outputs of the node in pages
(`TxHashSet::GetOutputsByLeafIndex`), keeps those whose range proof rewinds with its key, and
remembers the leaf up to which it has read.

A page without outputs says that its last index is zero, and zero is also the index of the first
leaf. The loop takes it for “nothing new” and returns an empty list – also when pages before it
had outputs. So everything depends on the last leaf of the range
(`GrinPlusPlus.OutputRestorer.Complete`): when it is spent, the last page is empty.
-/

namespace GrinPlusPlus

/-! ### Pages of outputs -/

/-- `OutputDTO`. -/
structure OutputDTO where
  /-- The output is spent. -/
  spent : Bool
  /-- The features and the commitment. -/
  identifier : OutputIdentifier
  /-- Where the output is. -/
  location : OutputLocation
  /-- The range proof. -/
  rangeProof : RangeProof
deriving DecidableEq

/-- `OutputRange`. -/
structure OutputRange where
  /-- The index of the last leaf. -/
  highestIndex : ℕ
  /-- The index of the last output. -/
  lastRetrievedIndex : ℕ
  /-- The outputs. -/
  outputs : List OutputDTO

namespace TxHashSet

/-- What the loop of `TxHashSet::GetOutputsByLeafIndex` makes of a leaf. -/
def outputDTOAt (t : TxHashSet) (db : BlockDB) (leafIndex : ℕ) :
    Except Exc (Option OutputDTO) :=
  match t.outputPMMR.current.getAt leafIndex with
  | none => .ok none
  | some output =>
    match t.rangeProofPMMR.current.getAt leafIndex, db.getOutputPosition output.commitment with
    | some rangeProof, some location =>
      if leafIndex ≠ location.leafIndex then
        .error (.txHashSet
          ("Failed to build OutputDTO at LeafIndex(" ++ toString leafIndex ++ ")"))
      else .ok (some ⟨false, output, location, rangeProof⟩)
    | _, _ =>
      .error (.txHashSet ("Failed to build OutputDTO at LeafIndex(" ++ toString leafIndex ++ ")"))

/-- The loop of `TxHashSet::GetOutputsByLeafIndex`, within a number of rounds. -/
def outputsFrom (t : TxHashSet) (db : BlockDB) (maxNumOutputs : ℕ) :
    ℕ → ℕ → List OutputDTO → Except Exc (List OutputDTO)
  | 0, _, _ => .error .hang
  | rounds + 1, leafIndex, outputs =>
    if maxNumOutputs ≤ outputs.length then .ok outputs
    else if t.outputPMMR.current.getSize ≤ leafPosition leafIndex then .ok outputs
    else do
      let output ← outputDTOAt t db leafIndex
      outputsFrom t db maxNumOutputs rounds (leafIndex + 1) (outputs ++ output.toList)

/-- `TxHashSet::GetOutputsByLeafIndex`. Leaf indices are natural numbers; a leaf stands at least
at the position of its index, so the rounds suffice. -/
def getOutputsByLeafIndex (t : TxHashSet) (db : BlockDB) (startIndex maxNumOutputs : ℕ) :
    Except Exc OutputRange := do
  let outputSize := t.outputPMMR.current.getSize
  let outputs ← outputsFrom t db maxNumOutputs (outputSize + 1) startIndex []
  let lastRetrievedIndex :=
    match outputs.getLast? with
    | none => 0
    | some output => output.location.leafIndex
  .ok ⟨Index.calculateLeafIndex outputSize - 1, lastRetrievedIndex, outputs⟩

end TxHashSet

/-! ### Rewinding -/

/-- `EBulletproofType`. -/
inductive EBulletproofType
  | original
  | enhanced
deriving DecidableEq

/-- `RewoundProof`. -/
structure RewoundProof where
  /-- The amount. -/
  amount : UInt64
  /-- The blinding factor. -/
  blindingFactorOpt : Option SecretKey
  /-- The bytes of the `ProofMessage`. -/
  message : CBigInteger 20

/-- The keys of a wallet, as far as outputs are restored with them. -/
structure RestoreKeyChain extends KeyChain where
  /-- `KeyChain::RewindRangeProof`. -/
  rewindRangeProof : Commitment → RangeProof → EBulletproofType → Option RewoundProof

open ByteBuffer in
/-- `ProofMessage::ToKeyIndices`. -/
def readKeyIndices : EBulletproofType → ByteBuffer KeyChainPath
  | .enhanced => do
    let _ ← readU8
    let _ ← readU8
    let _ ← readU8
    let length ← readU8
    readMany readU32 (if length = 0 then 3 else length.toNat)
  | .original => do
    let first4Bytes ← readU32
    if first4Bytes ≠ 0 then throw (.deserialization "Expected first 4 bytes to be 0")
    else readMany readU32 3

/-- `RewoundProof::ToKeyIndices`. -/
def RewoundProof.toKeyIndices (proof : RewoundProof) (type : EBulletproofType) :
    Except Exc KeyChainPath :=
  (Exec.run (readKeyIndices type) proof.message.bytes).1

namespace OutputRestorer

/-- `NUM_OUTPUTS_PER_BATCH`. -/
def numOutputsPerBatch : ℕ := 1000

variable (G : Global) (K : RestoreKeyChain)

/-- The rewinding of `OutputRestorer::GetWalletOutput`: the original kind of proofs is tried up to
two weeks behind the first header version. -/
def rewindOutput (output : OutputDTO) : Option (RewoundProof × EBulletproofType) :=
  let rewind := fun type =>
    (K.rewindRangeProof output.identifier.commitment output.rangeProof type).map (·, type)
  let original :=
    if Consensus.getHeaderVersion G.env
        (output.location.blockHeight - 2 * Consensus.weekHeight) = 1 then
      rewind .original
    else none
  match original with
  | some rewound => some rewound
  | none => rewind .enhanced

/-- `OutputRestorer::BuildWalletOutput`. -/
def buildWalletOutput (output : OutputDTO) (rewoundProof : RewoundProof)
    (type : EBulletproofType) : Except WalletExc OutputDataEntity := do
  let keyChainPath ← callCore (rewoundProof.toKeyIndices type)
  let secretKey ← (
    match rewoundProof.blindingFactorOpt, type with
    | some blindingFactor, .original => .ok blindingFactor
    | _, _ => orFail (K.derivePrivateKey keyChainPath rewoundProof.amount)
        (.core (.crypto "secp256k1_blind_switch failed")))
  .ok {
    keyChainPath := keyChainPath
    blindingFactor := secretKey
    output := ⟨output.identifier.features, output.identifier.commitment, output.rangeProof⟩
    amount := rewoundProof.amount
    status := if output.spent then .spent else .spendable
    mmrIndexOpt := some (UInt64.ofNat (leafPosition output.location.leafIndex))
    blockHeightOpt := some (UInt64.ofNat output.location.blockHeight)
    walletTxIdOpt := none }

/-- `OutputRestorer::GetWalletOutput`. -/
def getWalletOutput (output : OutputDTO) : Except WalletExc (Option OutputDataEntity) :=
  match rewindOutput G K output with
  | none => .ok none
  | some (rewoundProof, type) => (buildWalletOutput K output rewoundProof type).map some

/-- The outputs of a page that belong to the wallet. -/
def getWalletOutputs : List OutputDTO → Except WalletExc (List OutputDataEntity)
  | [] => .ok []
  | output :: outputs => do
    let walletOutput ← getWalletOutput G K output
    let walletOutputs ← getWalletOutputs outputs
    .ok (walletOutput.toList ++ walletOutputs)

/-! ### The loop -/

/-- `INodeClient::GetOutputsByLeafIndex`: there is no range while the state is downloaded. -/
def getOutputRange (node : Option TxHashSet) (db : BlockDB) (startIndex : ℕ) :
    Except WalletExc (Option OutputRange) :=
  match node with
  | none => .ok none
  | some t => (callCore (t.getOutputsByLeafIndex db startIndex numOutputsPerBatch)).map some

/-- The loop of `OutputRestorer::FindAndRewindOutputs`, within a number of rounds: the outputs and
the next index, or none if a page says that there is nothing new. -/
def restoreLoop (node : Option TxHashSet) (db : BlockDB) :
    ℕ → ℕ → ℕ → List OutputDataEntity →
      Except WalletExc (Option (List OutputDataEntity × ℕ))
  | 0, _, _, _ => .error (.core .hang)
  | rounds + 1, nextLeafIndex, highestIndex, walletOutputs => do
    let outputRange ← getOutputRange node db nextLeafIndex
    match outputRange with
    | none => .ok none
    | some outputRange =>
      if outputRange.lastRetrievedIndex = 0 then .ok none
      else do
        let found ← getWalletOutputs G K outputRange.outputs
        let walletOutputs := walletOutputs ++ found
        -- The first page fixes the highest index.
        let highestIndex := if highestIndex = 0 then outputRange.highestIndex else highestIndex
        let nextLeafIndex := outputRange.lastRetrievedIndex + 1
        if highestIndex < nextLeafIndex then .ok (some (walletOutputs, nextLeafIndex))
        else restoreLoop node db rounds nextLeafIndex highestIndex walletOutputs

/-- The index from which the outputs are read. -/
def startIndex (restoreLeafIndex : ℕ) (fromGenesis : Bool) : ℕ :=
  if fromGenesis then 0 else restoreLeafIndex + 1

/-- `OutputRestorer::FindAndRewindOutputs`: the outputs, and the restore index that is left in the
database. -/
def findAndRewindOutputs (node : Option TxHashSet) (db : BlockDB) (restoreLeafIndex : ℕ)
    (fromGenesis : Bool) : Except WalletExc (List OutputDataEntity × ℕ) := do
  let rounds :=
    match node with
    | none => 1
    | some t => t.outputPMMR.current.getSize + 1
  let restored ← restoreLoop G K node db rounds (startIndex restoreLeafIndex fromGenesis) 0 []
  match restored with
  | none => .ok ([], restoreLeafIndex)
  | some (walletOutputs, nextLeafIndex) => .ok (walletOutputs, nextLeafIndex - 1)

/-! ### What the pages are -/

/-- An output range of `n` leaves and the table of positions: every unspent output has its range
proof at the same leaf, and the table knows its leaf. -/
structure OutputsInStep (t : TxHashSet) (db : BlockDB) (n : ℕ) : Prop where
  /-- The number of leaves. -/
  size : t.outputPMMR.current.getSize = leafPosition n
  /-- The range proofs and the positions. -/
  located : ∀ i output, t.outputPMMR.current.getAt i = some output →
    ∃ rangeProof height, t.rangeProofPMMR.current.getAt i = some rangeProof ∧
      db.getOutputPosition output.commitment = some ⟨i, height⟩

/-- The unspent output at a leaf. -/
def unspentAt (t : TxHashSet) (db : BlockDB) (leafIndex : ℕ) : Option OutputDTO :=
  match t.outputDTOAt db leafIndex with
  | .ok output => output
  | .error _ => none

section Pages

variable {t : TxHashSet} {db : BlockDB} {n : ℕ} (h : OutputsInStep t db n)

include h

/-- A leaf is read without an exception. -/
theorem outputDTOAt_eq (i : ℕ) : t.outputDTOAt db i = .ok (unspentAt t db i) := by
  rw [unspentAt, TxHashSet.outputDTOAt]
  cases houtput : t.outputPMMR.current.getAt i with
  | none => rfl
  | some output =>
    obtain ⟨rangeProof, height, hproof, hposition⟩ := h.located i output houtput
    dsimp only
    rw [hproof, hposition]
    dsimp only
    rw [if_neg (not_not.mpr rfl)]

/-- The output at a leaf is located there. -/
theorem leafIndex_of_unspentAt {i : ℕ} {output : OutputDTO}
    (houtput : unspentAt t db i = some output) : output.location.leafIndex = i := by
  have heq := outputDTOAt_eq h i
  rw [houtput, TxHashSet.outputDTOAt] at heq
  cases hidentifier : t.outputPMMR.current.getAt i with
  | none =>
    rw [hidentifier] at heq
    cases heq
  | some identifier =>
    obtain ⟨rangeProof, height, hproof, hposition⟩ := h.located i identifier hidentifier
    rw [hidentifier] at heq
    dsimp only at heq
    rw [hproof, hposition] at heq
    dsimp only at heq
    rw [if_neg (not_not.mpr rfl)] at heq
    cases heq
    rfl

/-- A page of unspent outputs ends behind the last of them. -/
theorem page_unspent {start count : ℕ} {last : OutputDTO}
    (hlast : ((Paging.present (unspentAt t db) start n).take count).getLast? = some last) :
    (start ≤ last.location.leafIndex ∧ last.location.leafIndex < n) ∧
      unspentAt t db last.location.leafIndex = some last ∧
      (Paging.present (unspentAt t db) start n).take count =
        Paging.present (unspentAt t db) start (last.location.leafIndex + 1) :=
  Paging.page_eq (fun _ _ => leafIndex_of_unspentAt h) hlast

/-- **The loop over the leaves** collects what is unspent, up to the number that is asked for. -/
theorem outputsFrom_eq {maxNumOutputs rounds i : ℕ} {outputs : List OutputDTO}
    (hrounds : n - i < rounds) :
    t.outputsFrom db maxNumOutputs rounds i outputs =
      .ok (outputs ++
        (Paging.present (unspentAt t db) i n).take (maxNumOutputs - outputs.length)) := by
  induction rounds generalizing i outputs with
  | zero => exact absurd hrounds (Nat.not_lt_zero _)
  | succ rounds ih =>
    rw [TxHashSet.outputsFrom]
    split
    · next hfull =>
      rw [Nat.sub_eq_zero_of_le hfull, List.take_zero, List.append_nil]
    · next hroom =>
      have hend : t.outputPMMR.current.getSize ≤ leafPosition i ↔ n ≤ i := by
        rw [h.size, leafPosition, leafPosition, PostOrder.leafPos_strictMono.le_iff_le]
      split
      · next hle =>
        rw [Paging.present_of_le (hend.mp hle), List.take_nil, List.append_nil]
      · next hmore =>
        rw [hend, not_le] at hmore
        have hfuel : n - (i + 1) < rounds := by omega
        rw [outputDTOAt_eq h, Exec.ok_bind, ih hfuel, Paging.present_of_lt hmore]
        cases unspentAt t db i with
        | none => simp
        | some output =>
          obtain ⟨k, hk⟩ : ∃ k, maxNumOutputs - outputs.length = k + 1 :=
            ⟨maxNumOutputs - outputs.length - 1, by omega⟩
          have hk' : maxNumOutputs - (outputs.length + 1) = k := by omega
          simp [hk, hk']

/-- **A page**: the first unspent outputs from an index on. -/
theorem getOutputsByLeafIndex_eq (start maxNumOutputs : ℕ) :
    t.getOutputsByLeafIndex db start maxNumOutputs =
      .ok ⟨n - 1,
        match ((Paging.present (unspentAt t db) start n).take maxNumOutputs).getLast? with
        | none => 0
        | some output => output.location.leafIndex,
        (Paging.present (unspentAt t db) start n).take maxNumOutputs⟩ := by
  have hrounds : n - start < t.outputPMMR.current.getSize + 1 := by
    have hle := PostOrder.le_leafPos n
    rw [h.size, leafPosition]
    omega
  rw [TxHashSet.getOutputsByLeafIndex, outputsFrom_eq h hrounds, List.nil_append, List.length_nil,
    Nat.sub_zero, h.size, leafPosition, calculateLeafIndex_leafPos]
  rfl

end Pages

/-! ### The outputs of the wallet -/

/-- What rewinds with the key of the wallet was made by it: the message is a path, for which there
is a key. -/
def KeepsPaths (K : RestoreKeyChain) : Prop :=
  ∀ commitment rangeProof type proof, K.rewindRangeProof commitment rangeProof type = some proof →
    ∃ path, proof.toKeyIndices type = .ok path ∧
      (K.derivePrivateKey path proof.amount).isSome = true

/-- The output of the wallet that is behind an unspent output. -/
def walletOutput (output : OutputDTO) : Option OutputDataEntity :=
  match getWalletOutput G K output with
  | .ok walletOutput => walletOutput
  | .error _ => none

/-- The unspent outputs of the wallet from a leaf on, below another one. -/
def ownOutputs (t : TxHashSet) (db : BlockDB) (start n : ℕ) : List OutputDataEntity :=
  (Paging.present (unspentAt t db) start n).filterMap (walletOutput G K)

section Own

variable {G K} (hK : KeepsPaths K)

theorem of_rewindOutput {output : OutputDTO} {proof : RewoundProof} {type : EBulletproofType}
    (h : rewindOutput G K output = some (proof, type)) :
    K.rewindRangeProof output.identifier.commitment output.rangeProof type = some proof := by
  have hmap : ∀ type', (K.rewindRangeProof output.identifier.commitment output.rangeProof
      type').map (·, type') = some (proof, type) →
        K.rewindRangeProof output.identifier.commitment output.rangeProof type = some proof := by
    intro type' hrewind
    obtain ⟨proof', hproof, hpair⟩ := Option.map_eq_some_iff.mp hrewind
    cases hpair
    exact hproof
  rw [rewindOutput] at h
  dsimp only at h
  split at h
  · next rewound hrewound =>
    cases h
    split at hrewound
    · exact hmap _ hrewound
    · cases hrewound
  · exact hmap _ h

include hK

/-- An output is looked at without an exception. -/
theorem getWalletOutput_eq (output : OutputDTO) :
    getWalletOutput G K output = .ok (walletOutput G K output) := by
  rw [walletOutput, getWalletOutput]
  cases hrewind : rewindOutput G K output with
  | none => rfl
  | some rewound =>
    obtain ⟨proof, type⟩ := rewound
    obtain ⟨path, hpath, hkey⟩ := hK _ _ _ _ (of_rewindOutput hrewind)
    obtain ⟨key, hkey⟩ := Option.isSome_iff_exists.mp hkey
    dsimp only
    rw [buildWalletOutput, hpath, callCore, Exec.ok_bind, hkey]
    cases proof.blindingFactorOpt with
    | none => rfl
    | some blindingFactor => cases type <;> rfl

theorem getWalletOutputs_eq (outputs : List OutputDTO) :
    getWalletOutputs G K outputs = .ok (outputs.filterMap (walletOutput G K)) := by
  induction outputs with
  | nil => rfl
  | cons output outputs ih =>
    rw [getWalletOutputs, getWalletOutput_eq hK, Exec.ok_bind, ih, Exec.ok_bind,
      List.filterMap_cons]
    cases walletOutput G K output <;> rfl

end Own

/-! ### What the loop returns -/

/-- The last leaf is unspent, is not the first one of all, and is read. -/
structure Complete (t : TxHashSet) (db : BlockDB) (start n : ℕ) : Prop where
  /-- There are leaves to read. -/
  start_lt : start < n
  /-- The last one is not the one of index zero. -/
  ne_one : n ≠ 1
  /-- It is unspent. -/
  isSome : (unspentAt t db (n - 1)).isSome = true

section Run

variable {G K} {t : TxHashSet} {db : BlockDB} {n : ℕ} (h : OutputsInStep t db n)
  (hK : KeepsPaths K)

include h in
/-- While the last leaf is to be read, a page ends behind the first leaf. -/
theorem exists_last {start : ℕ} (hcomplete : Complete t db start n) :
    ∃ last, ((Paging.present (unspentAt t db) start n).take numOutputsPerBatch).getLast? =
      some last ∧ 0 < last.location.leafIndex := by
  obtain ⟨hlt, hone, hsome⟩ := hcomplete
  obtain ⟨output, houtput⟩ := Option.isSome_iff_exists.mp hsome
  have hmem : output ∈ Paging.present (unspentAt t db) start n :=
    Paging.mem_present_iff.mpr ⟨n - 1, by omega, by omega, houtput⟩
  cases hlast : ((Paging.present (unspentAt t db) start n).take
      numOutputsPerBatch).getLast? with
  | none =>
    rw [List.getLast?_eq_none_iff, List.take_eq_nil_iff] at hlast
    rcases hlast with hzero | hnil
    · cases hzero
    · rw [hnil] at hmem
      cases hmem
  | some last =>
    refine ⟨last, rfl, Nat.pos_of_ne_zero fun hzero => ?_⟩
    -- A page that ends with leaf zero has one output, but there is another one to read.
    obtain ⟨⟨hs, -⟩, hvalue, hpage⟩ := page_unspent h hlast
    rw [hzero] at hs hvalue hpage
    obtain rfl : start = 0 := Nat.le_zero.mp hs
    have hfirst : Paging.present (unspentAt t db) 0 1 = [last] := by
      rw [Paging.present_of_lt Nat.one_pos, hvalue, Paging.present_of_le (le_refl _)]
      rfl
    have hrest : 0 < (Paging.present (unspentAt t db) 1 n).length :=
      List.length_pos_of_mem (Paging.mem_present_iff.mpr ⟨n - 1, by omega, by omega, houtput⟩)
    have hlength := congrArg List.length hpage
    rw [List.length_take, Nat.zero_add, Paging.present_append (Nat.zero_le 1) (by omega : 1 ≤ n),
      hfirst, List.length_append, List.length_singleton] at hlength
    simp only [numOutputsPerBatch] at hlength
    omega

include h hK

/-- One page, as the loop sees it. -/
theorem restoreLoop_succ (rounds start highestIndex : ℕ) (found : List OutputDataEntity) :
    restoreLoop G K (some t) db (rounds + 1) start highestIndex found =
      match ((Paging.present (unspentAt t db) start n).take numOutputsPerBatch).getLast? with
      | none => .ok none
      | some last =>
        if last.location.leafIndex = 0 then .ok none
        else if (if highestIndex = 0 then n - 1 else highestIndex) <
            last.location.leafIndex + 1 then
          .ok (some (found ++ ownOutputs G K t db start (last.location.leafIndex + 1),
            last.location.leafIndex + 1))
        else
          restoreLoop G K (some t) db rounds (last.location.leafIndex + 1)
            (if highestIndex = 0 then n - 1 else highestIndex)
            (found ++ ownOutputs G K t db start (last.location.leafIndex + 1)) := by
  rw [restoreLoop, getOutputRange, getOutputsByLeafIndex_eq h]
  dsimp only [callCore, Except.map]
  rw [Exec.ok_bind]
  cases hlast : ((Paging.present (unspentAt t db) start n).take
      numOutputsPerBatch).getLast? with
  | none => rfl
  | some last =>
    obtain ⟨-, -, hpage⟩ := page_unspent h hlast
    dsimp only
    rw [hpage, getWalletOutputs_eq hK, ownOutputs]
    rfl

/-- **The loop reads everything** up to the last leaf, when this is unspent. -/
theorem restoreLoop_complete {rounds start highestIndex : ℕ} {found : List OutputDataEntity}
    (hcomplete : Complete t db start n) (hhighest : highestIndex = 0 ∨ highestIndex = n - 1)
    (hrounds : n - start < rounds) :
    restoreLoop G K (some t) db rounds start highestIndex found =
      .ok (some (found ++ ownOutputs G K t db start n, n)) := by
  induction rounds generalizing start highestIndex found with
  | zero => exact absurd hrounds (Nat.not_lt_zero _)
  | succ rounds ih =>
    obtain ⟨last, hlast, hpos⟩ := exists_last h hcomplete
    obtain ⟨⟨hs, hn⟩, -, -⟩ := page_unspent h hlast
    have hbound : (if highestIndex = 0 then n - 1 else highestIndex) = n - 1 := by
      split
      · rfl
      · next hne => exact hhighest.resolve_left hne
    rw [restoreLoop_succ h hK, hlast, hbound]
    dsimp only
    rw [if_neg hpos.ne']
    split
    · next hend =>
      obtain heq : last.location.leafIndex + 1 = n := by omega
      rw [heq]
    · next hmore =>
      have hnext : Complete t db (last.location.leafIndex + 1) n :=
        ⟨by omega, hcomplete.ne_one, hcomplete.isSome⟩
      rw [ih hnext (.inr rfl) (by omega), List.append_assoc, ownOutputs, ownOutputs, ownOutputs,
        ← List.filterMap_append,
        ← Paging.present_append (by omega : start ≤ last.location.leafIndex + 1) (by omega)]

/-- **The loop finds nothing** when the last leaf is spent, or is leaf zero. -/
theorem restoreLoop_incomplete {rounds start highestIndex : ℕ} {found : List OutputDataEntity}
    (hincomplete : ¬Complete t db start n) (hhighest : highestIndex = 0 ∨ highestIndex = n - 1)
    (hrounds : n - start < rounds) :
    restoreLoop G K (some t) db rounds start highestIndex found = .ok none := by
  induction rounds generalizing start highestIndex found with
  | zero => exact absurd hrounds (Nat.not_lt_zero _)
  | succ rounds ih =>
    have hbound : (if highestIndex = 0 then n - 1 else highestIndex) = n - 1 := by
      split
      · rfl
      · next hne => exact hhighest.resolve_left hne
    rw [restoreLoop_succ h hK, hbound]
    split
    · rfl
    · next last hlast =>
      split
      · rfl
      · next hne =>
        obtain ⟨⟨hs, hn⟩, hvalue, -⟩ := page_unspent h hlast
        -- The last leaf is behind this page, since it is spent.
        have hspent : ¬(unspentAt t db (n - 1)).isSome = true := fun hsome =>
          hincomplete ⟨by omega, by omega, hsome⟩
        have hbefore : last.location.leafIndex ≠ n - 1 := by
          intro heq
          rw [heq] at hvalue
          exact hspent (by rw [hvalue]; rfl)
        rw [if_neg (by omega)]
        exact ih (fun hnext => hspent hnext.isSome) (.inr rfl) (by omega)

theorem findAndRewindOutputs_of_complete {restoreLeafIndex : ℕ} {fromGenesis : Bool}
    (hcomplete : Complete t db (startIndex restoreLeafIndex fromGenesis) n) :
    findAndRewindOutputs G K (some t) db restoreLeafIndex fromGenesis =
      .ok (ownOutputs G K t db (startIndex restoreLeafIndex fromGenesis) n, n - 1) := by
  have hle := PostOrder.le_leafPos n
  rw [findAndRewindOutputs, h.size, leafPosition]
  rw [restoreLoop_complete h hK hcomplete (.inl rfl) (by omega), List.nil_append]
  rfl

theorem findAndRewindOutputs_of_incomplete {restoreLeafIndex : ℕ} {fromGenesis : Bool}
    (hincomplete : ¬Complete t db (startIndex restoreLeafIndex fromGenesis) n) :
    findAndRewindOutputs G K (some t) db restoreLeafIndex fromGenesis =
      .ok ([], restoreLeafIndex) := by
  have hle := PostOrder.le_leafPos n
  rw [findAndRewindOutputs, h.size, leafPosition]
  rw [restoreLoop_incomplete h hK hincomplete (.inl rfl) (by omega)]
  rfl

end Run

/-! ### What a wallet needs to see its outputs -/

/-- More leaves were appended to a range of `n`; some of the old ones may have been spent. -/
structure Appended (t : TxHashSet) (db : BlockDB) (n : ℕ) (t' : TxHashSet) (db' : BlockDB)
    (n' : ℕ) : Prop where
  /-- No leaf is lost. -/
  le : n ≤ n'
  /-- What is unspent among the old leaves was so before. -/
  unspent : ∀ i, i < n → ∀ output, unspentAt t' db' i = some output →
    unspentAt t db i = some output

/-- **The restore misses nothing**: a first call returns the unspent outputs of the wallet from its
start index on, and a later one, from the index that the first one left, those of the new
leaves. -/
def RestoresAll (t : TxHashSet) (db : BlockDB) (n : ℕ) (t' : TxHashSet) (db' : BlockDB) (n' : ℕ)
    (restoreLeafIndex : ℕ) (fromGenesis : Bool) : Prop :=
  ∃ index index',
    findAndRewindOutputs G K (some t) db restoreLeafIndex fromGenesis =
      .ok (ownOutputs G K t db (startIndex restoreLeafIndex fromGenesis) n, index) ∧
    findAndRewindOutputs G K (some t') db' index false = .ok (ownOutputs G K t' db' n n', index')

/-- There is nothing to see from a leaf on, or the last leaf shows it. -/
def Sees (t : TxHashSet) (db : BlockDB) (start n : ℕ) : Prop :=
  ownOutputs G K t db start n = [] ∨ Complete t db start n

/-- The wallet sees its outputs. If the first call reads up to the last leaf, the later one goes on
behind it; otherwise the restore index stays where it is, and there must be no outputs of the
wallet among the new leaves up to it. -/
def CanRestore (t : TxHashSet) (db : BlockDB) (n : ℕ) (t' : TxHashSet) (db' : BlockDB) (n' : ℕ)
    (restoreLeafIndex : ℕ) (fromGenesis : Bool) : Prop :=
  (Complete t db (startIndex restoreLeafIndex fromGenesis) n ∧ Sees G K t' db' n n') ∨
    (¬Complete t db (startIndex restoreLeafIndex fromGenesis) n ∧
      ownOutputs G K t db (startIndex restoreLeafIndex fromGenesis) n = [] ∧
      ownOutputs G K t' db' n (restoreLeafIndex + 1) = [] ∧
      Sees G K t' db' (restoreLeafIndex + 1) n')

/-- A range in which every unspent leaf can be read, with its range proof and its position. -/
theorem outputsInStep_of {t : TxHashSet} {db : BlockDB} {n : ℕ}
    (hsize : t.outputPMMR.current.getSize = leafPosition n)
    (hread : ∀ i, i < n → (t.outputPMMR.current.getAt i).isSome = true →
      (unspentAt t db i).isSome = true) : OutputsInStep t db n where
  size := hsize
  located := by
    intro i output houtput
    have hi : i < n := by
      by_contra hle
      have hbeyond : t.outputPMMR.current.getSize ≤ leafPosition i := by
        rw [hsize]
        exact PostOrder.leafPos_strictMono.monotone (Nat.le_of_not_lt hle)
      rw [PruneableFiles.getAt, PruneableFiles.isUnpruned,
        decide_eq_false (Nat.not_lt.mpr hbeyond)] at houtput
      cases houtput
    have hsome := hread i hi (by rw [houtput]; rfl)
    rw [unspentAt, TxHashSet.outputDTOAt, houtput] at hsome
    dsimp only at hsome
    cases hproof : t.rangeProofPMMR.current.getAt i with
    | none =>
      rw [hproof] at hsome
      cases hsome
    | some rangeProof =>
      cases hposition : db.getOutputPosition output.commitment with
      | none =>
        rw [hproof, hposition] at hsome
        cases hsome
      | some location =>
        rw [hproof, hposition] at hsome
        dsimp only at hsome
        by_cases heq : i = location.leafIndex
        · exact ⟨rangeProof, location.blockHeight, rfl, by rw [heq]⟩
        · rw [if_pos heq] at hsome
          cases hsome

section Later

variable {G K} {t t' : TxHashSet} {db db' : BlockDB} {n n' : ℕ}

/-- The outputs of two readings put together. -/
theorem ownOutputs_append (t : TxHashSet) (db : BlockDB) {s m n : ℕ} (hsm : s ≤ m) (hmn : m ≤ n) :
    ownOutputs G K t db s n = ownOutputs G K t db s m ++ ownOutputs G K t db m n := by
  rw [ownOutputs, Paging.present_append hsm hmn, List.filterMap_append]
  rfl

/-- There is no output behind the last leaf. -/
theorem unspentAt_of_le (h : OutputsInStep t db n) {i : ℕ} (hi : n ≤ i) :
    unspentAt t db i = none := by
  have hsize : t.outputPMMR.current.getSize ≤ leafPosition i := by
    rw [h.size]
    exact PostOrder.leafPos_strictMono.monotone hi
  rw [unspentAt, TxHashSet.outputDTOAt, PruneableFiles.getAt, PruneableFiles.isUnpruned,
    decide_eq_false (Nat.not_lt.mpr hsize)]
  rfl

/-- An output of the wallet among the old leaves was seen before. -/
theorem ownOutputs_old_eq_nil (happended : Appended t db n t' db' n') {start s : ℕ}
    (hown : ownOutputs G K t db start n = []) (hstart : start ≤ s) :
    ownOutputs G K t' db' s n = [] := by
  rw [ownOutputs, List.filterMap_eq_nil_iff] at hown ⊢
  intro output houtput
  obtain ⟨i, hsi, hin, hunspent⟩ := Paging.mem_present_iff.mp houtput
  exact hown output (Paging.mem_present_iff.mpr
    ⟨i, hstart.trans hsi, hin, happended.unspent i hin output hunspent⟩)

/-- The new outputs are those up to an index and those behind it, when there are none among the
old leaves behind the index. -/
theorem ownOutputs_new_eq (h' : OutputsInStep t' db' n') (hle : n ≤ n') {s : ℕ}
    (hold : ownOutputs G K t' db' s n = []) :
    ownOutputs G K t' db' n n' = ownOutputs G K t' db' n s ++ ownOutputs G K t' db' s n' := by
  rcases Nat.le_total s n with hsn | hns
  · -- The index is among the old leaves.
    have hnil : ownOutputs G K t' db' n s = [] := by
      rw [ownOutputs, Paging.present_of_le hsn, List.filterMap_nil]
    rw [hnil, List.nil_append, ownOutputs_append t' db' hsn hle, hold, List.nil_append]
  · rcases Nat.le_total s n' with hsn' | hn's
    · exact ownOutputs_append t' db' hns hsn'
    · -- The index is behind all leaves.
      have hnil : ownOutputs G K t' db' s n' = [] := by
        rw [ownOutputs, Paging.present_of_le hn's, List.filterMap_nil]
      rw [hnil, List.append_nil, ownOutputs, ownOutputs]
      congr 1
      exact (Paging.present_eq_of_none hle hn's fun i hi _ => unspentAt_of_le h' hi).symm

/-- **The later call** returns the new outputs exactly when it sees them from its index on and
none is in front of it. -/
theorem later_iff (hK : KeepsPaths K) (h' : OutputsInStep t' db' n') (hle : n ≤ n') {index : ℕ}
    (hold : ownOutputs G K t' db' (index + 1) n = []) :
    (∃ index', findAndRewindOutputs G K (some t') db' index false =
        .ok (ownOutputs G K t' db' n n', index')) ↔
      ownOutputs G K t' db' n (index + 1) = [] ∧ Sees G K t' db' (index + 1) n' := by
  have hstart : startIndex index false = index + 1 := rfl
  rw [ownOutputs_new_eq h' hle hold]
  by_cases hcomplete : Complete t' db' (startIndex index false) n'
  · rw [findAndRewindOutputs_of_complete h' hK hcomplete, hstart]
    constructor
    · rintro ⟨index', hresult⟩
      have houtputs := congrArg Prod.fst (Except.ok.inj hresult)
      exact ⟨List.self_eq_append_left.mp houtputs, .inr hcomplete⟩
    · rintro ⟨hnone, -⟩
      exact ⟨_, by rw [hnone, List.nil_append]⟩
  · rw [findAndRewindOutputs_of_incomplete h' hK hcomplete]
    constructor
    · rintro ⟨index', hresult⟩
      have houtputs := congrArg Prod.fst (Except.ok.inj hresult)
      obtain ⟨hnone, hrest⟩ := List.append_eq_nil_iff.mp houtputs.symm
      exact ⟨hnone, .inl hrest⟩
    · rintro ⟨hnone, hrest | hrest⟩
      · exact ⟨_, by rw [hnone, hrest]; rfl⟩
      · exact absurd hrest hcomplete

end Later

end OutputRestorer

/-- What is read off a result is a function of what was returned. -/
theorem length_of_toOption {ε α β : Type} {x : Except ε (List α × β)} {l : List α} {i : β}
    {k : ℕ} (hx : x = .ok (l, i)) (h : x.toOption.map (fun r => r.1.length) = some k) :
    l.length = k := by
  subst hx
  exact Option.some.inj h

theorem index_of_toOption {ε α β : Type} {x : Except ε (List α × β)} {l : List α} {i k : β}
    (hx : x = .ok (l, i)) (h : x.toOption.map Prod.snd = some k) : i = k := by
  subst hx
  exact Option.some.inj h

namespace SmallNet

open OutputRestorer

theorem length_zeros_20 : (List.replicate 20 (0 : UInt8)).length = 20 := List.length_replicate

/-- A key with which every range proof rewinds. -/
def ownerKeys : RestoreKeyChain where
  toKeyChain := (smallWallet 100).keyChain
  rewindRangeProof := fun _ _ _ =>
    some ⟨1000, none, ⟨List.replicate 20 0, length_zeros_20⟩⟩

theorem keepsPaths_ownerKeys : KeepsPaths ownerKeys := by
  rintro commitment rangeProof type _ ⟨⟩
  cases type with
  | original => exact ⟨[0, 0, 0], by decide, rfl⟩
  | enhanced => exact ⟨[0, 0, 0], by decide, rfl⟩

theorem isSome_txHashSet₁ : state₁.txHashSet.isSome = true := by decide +kernel

/-- The hash set with two outputs. -/
def txHashSet₁ : TxHashSet := state₁.txHashSet.get isSome_txHashSet₁

theorem isSome_txHashSet₃ : (after state₂ block₃).txHashSet.isSome = true := by decide +kernel

/-- The hash set with four outputs, two of them new. -/
def txHashSet₃ : TxHashSet := (after state₂ block₃).txHashSet.get isSome_txHashSet₃

/-- A hash set with four outputs, of which the last one is spent. -/
def spentTxHashSet : TxHashSet :=
  { txHashSet₃ with
    outputPMMR := txHashSet₃.outputPMMR.write fun f =>
      { f with leafSet := LeafSet.remove 3 f.leafSet }
    rangeProofPMMR := txHashSet₃.rangeProofPMMR.write fun f =>
      { f with leafSet := LeafSet.remove 3 f.leafSet } }

theorem outputsInStep₁ : OutputsInStep txHashSet₁ state₁.blockDB 2 :=
  outputsInStep_of (by decide +kernel) (by decide +kernel)

theorem outputsInStep₃ : OutputsInStep txHashSet₃ (after state₂ block₃).blockDB 4 :=
  outputsInStep_of (by decide +kernel) (by decide +kernel)

theorem appended₁₃ :
    Appended txHashSet₁ state₁.blockDB 2 txHashSet₃ (after state₂ block₃).blockDB 4 where
  le := by decide
  unspent := by
    have hsame : ∀ i, i < 2 → unspentAt txHashSet₃ (after state₂ block₃).blockDB i =
        unspentAt txHashSet₁ state₁.blockDB i := by decide +kernel
    intro i hi output houtput
    rw [← hsame i hi]
    exact houtput

end SmallNet

open SmallNet OutputRestorer

end GrinPlusPlus
