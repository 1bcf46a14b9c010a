import Mathlib.Data.List.Dedup
import GrinPlusPlus.Core.SmallNet
import GrinPlusPlus.Lib.Keyed
import GrinPlusPlus.TxPool.TransactionPool

/-!
# Compact blocks

A compact block names the kernels of a block by six bytes each. `CompactBlockFactory` makes it,
and `BlockHydrator` looks in the mempool for transactions with these kernels and puts the block
together again.

Short ids name *kernels*, the pool gives back *transactions*, once for every kernel that is
named, and stops at the number of names. What it gives is right when the kernels of the block
are in the pool once each; the rest is that putting lists together, cutting through and sorting
does not depend on order and repetition (`GrinPlusPlus.Lib.Keyed`).
-/

namespace GrinPlusPlus

/-! ### Short ids -/

/-- The bytes of a number, the lowest first. -/
def leBytes (k n : ℕ) : List UInt8 :=
  (beBytes k n).reverse

/-- The number of some bytes, the lowest first. -/
def readLittleEndian (bytes : List UInt8) : UInt64 :=
  bytes.foldr (fun b n => (n <<< 8) ||| b.toUInt64) 0

namespace SipHash

/-- The four words of the state. -/
structure State where
  v0 : UInt64
  v1 : UInt64
  v2 : UInt64
  v3 : UInt64

/-- `SIPHASH_BIT_ROTL`. -/
def rotl (b n : UInt64) : UInt64 :=
  (b <<< n) ||| (b >>> (64 - n))

/-- `SIPHASH_ROUND`. -/
def round (s : State) : State :=
  let s0 := s.v0 + s.v1
  let s2 := s.v2 + s.v3
  let s1 := rotl s.v1 13 ^^^ s0
  let s3 := rotl s.v3 16 ^^^ s2
  let s0 := rotl s0 32
  let s2 := s2 + s1
  let s0 := s0 + s3
  let s1 := rotl s1 17 ^^^ s2
  let s3 := rotl s3 21 ^^^ s0
  ⟨s0, s1, rotl s2 32, s3⟩

/-- Two rounds on one word of the message. -/
def compress (s : State) (mi : UInt64) : State :=
  let s := round (round { s with v3 := s.v3 ^^^ mi })
  { s with v0 := s.v0 ^^^ mi }

/-- `siphash24`. -/
def siphash24 (k0 k1 : UInt64) (src : List UInt8) : UInt64 :=
  let w := src.length / 8
  let s : State := ⟨k0 ^^^ 0x736f6d6570736575, k1 ^^^ 0x646f72616e646f6d,
    k0 ^^^ 0x6c7967656e657261, k1 ^^^ 0x7465646279746573⟩
  let s := (List.range w).foldl
    (fun s i => compress s (readLittleEndian ((src.drop (8 * i)).take 8))) s
  let s := compress s
    ((UInt64.ofNat src.length <<< 56) ||| readLittleEndian (src.drop (8 * w)))
  let s := round (round (round (round { s with v2 := s.v2 ^^^ 0xff })))
  s.v0 ^^^ s.v1 ^^^ s.v2 ^^^ s.v3

end SipHash

/-- `ShortId`: six bytes. -/
abbrev ShortId := CBigInteger 6

theorem length_shortId (n : UInt64) : ((leBytes 8 n.toNat).take 6).length = 6 := by
  rw [List.length_take, leBytes, List.length_reverse, length_beBytes]
  rfl

variable (G : Global)

/-- `ShortId::Create`. -/
def ShortId.create (hash blockHash : Hash) (nonce : UInt64) : ShortId :=
  let hashWithNonce := G.blake2b (.bytes (blockHash.getData ++ beBytes 8 nonce.toNat))
  let k0 := readLittleEndian (hashWithNonce.getData.take 8)
  let k1 := readLittleEndian ((hashWithNonce.getData.drop 8).take 8)
  let sipHash := SipHash.siphash24 k0 k1 hash.getData
  ⟨(leBytes 8 sipHash.toNat).take 6, length_shortId sipHash⟩

/-- `ShortId::GetHash`. -/
def ShortId.getHash (id : ShortId) : Hash :=
  G.blake2b (.bytes id.bytes)

/-! ### The blocks -/

/-- `CompactBlock`. -/
structure CompactBlock where
  /-- `m_pBlockHeader`. -/
  header : BlockHeader
  /-- `m_nonce`. -/
  nonce : UInt64
  /-- `m_outputs`. -/
  outputs : List TransactionOutput
  /-- `m_kernels`. -/
  kernels : List TransactionKernel
  /-- `m_shortIds`. -/
  shortIds : List ShortId
deriving DecidableEq

/-- `TransactionBody::TransactionBody`: a body is sorted when it is made. -/
def TransactionBody.create (inputs : List TransactionInput) (outputs : List TransactionOutput)
    (kernels : List TransactionKernel) : TransactionBody where
  inputs := sortByHash (TransactionInput.getHash G) inputs
  outputs := sortByHash (TransactionOutput.getHash G) outputs
  kernels := sortByHash (TransactionKernel.getHash G) kernels

/-- `CompactBlockFactory::CreateCompactBlock`, with the nonce that was drawn. -/
def CompactBlockFactory.createCompactBlock (block : FullBlock) (nonce : UInt64) :
    CompactBlock :=
  let coinbaseOutputs := block.body.outputs.filter fun output => output.features.isCoinbase
  let coinbaseKernels := block.body.kernels.filter fun kernel => kernel.features.isCoinbase
  let kernelIds := (block.body.kernels.filter fun kernel => !kernel.features.isCoinbase).map
    fun kernel => ShortId.create G (kernel.getHash G) (block.getHash G) nonce
  { header := block.header
    nonce := nonce
    outputs := sortByHash (TransactionOutput.getHash G) coinbaseOutputs
    kernels := sortByHash (TransactionKernel.getHash G) coinbaseKernels
    shortIds := sortByHash (ShortId.getHash G) kernelIds }

namespace Pool

/-- The two loops of `Pool::GetTransactionsByShortId`, over the kernels of the transactions: a
transaction is found once for each kernel that is missing, until there are as many as missing
kernels. -/
def findMissing (missing : TransactionKernel → Bool) (count : ℕ) :
    List (Transaction × TransactionKernel) → List Transaction → List Transaction
  | [], found => found
  | (tx, kernel) :: rest, found =>
    if missing kernel then
      let found := found ++ [tx]
      if found.length = count then found else findMissing missing count rest found
    else findMissing missing count rest found

/-- The kernels of the pool, with their transactions. -/
def kernelsOf (transactions : List Transaction) : List (Transaction × TransactionKernel) :=
  transactions.flatMap fun tx => tx.body.kernels.map fun kernel => (tx, kernel)

/-- `Pool::GetTransactionsByShortId`, for a set of short ids. -/
def getTransactionsByShortId (p : Pool) (hash : Hash) (nonce : UInt64)
    (missingShortIds : List ShortId) : List Transaction :=
  findMissing
    (fun kernel => decide (ShortId.create G (kernel.getHash G) hash nonce ∈ missingShortIds))
    missingShortIds.length (kernelsOf (p.map TxPoolEntry.transaction)) []

end Pool

namespace BlockHydrator

/-- `BlockHydrator::Hydrate`, with the transactions. -/
def hydrateWith (compactBlock : CompactBlock) (transactions : List Transaction) : FullBlock :=
  let allInputs := transactions.foldl
    (fun all tx => List.keepNew (TransactionInput.getHash G) all tx.body.inputs) []
  let allOutputs := List.keepNew (TransactionOutput.getHash G)
    (transactions.foldl
      (fun all tx => List.keepNew (TransactionOutput.getHash G) all tx.body.outputs) [])
    compactBlock.outputs
  let allKernels := List.keepNew (TransactionKernel.getHash G)
    (transactions.foldl
      (fun all tx => List.keepNew (TransactionKernel.getHash G) all tx.body.kernels) [])
    compactBlock.kernels
  let (allInputs, allOutputs) := TransactionUtil.performCutThrough allInputs allOutputs
  { header := compactBlock.header
    body := TransactionBody.create G (sortByHash (TransactionInput.getHash G) allInputs)
      (sortByHash (TransactionOutput.getHash G) allOutputs)
      (sortByHash (TransactionKernel.getHash G) allKernels) }

/-- `BlockHydrator::Hydrate`. -/
def hydrate (memPool : Pool) (compactBlock : CompactBlock) : Option FullBlock :=
  if compactBlock.shortIds.isEmpty then some (hydrateWith G compactBlock [])
  else
    let shortIdsSet := compactBlock.shortIds.dedup
    let transactions := memPool.getTransactionsByShortId G (compactBlock.header.getHash G)
      compactBlock.nonce shortIdsSet
    if transactions.length = compactBlock.shortIds.length then
      some (hydrateWith G compactBlock transactions)
    else none

end BlockHydrator

/-! ### A block and the transactions it was made of -/

variable {G}
variable {block : FullBlock} {transactions others : List Transaction}
  {coinbaseOutputs : List TransactionOutput} {coinbaseKernels : List TransactionKernel}

variable (G) in
/-- The body is the cut-through aggregate of the transactions, with a coinbase. -/
structure MadeOf (block : FullBlock) (transactions : List Transaction)
    (coinbaseOutputs : List TransactionOutput) (coinbaseKernels : List TransactionKernel) :
    Prop where
  /-- The inputs of the transactions. -/
  inputs : block.body.inputs = sortByHash (TransactionInput.getHash G)
    (TransactionUtil.performCutThrough (transactions.flatMap fun tx => tx.body.inputs)
      (transactions.flatMap fun tx => tx.body.outputs)).1
  /-- Their outputs, and those of the coinbase. -/
  outputs : block.body.outputs = sortByHash (TransactionOutput.getHash G)
    ((TransactionUtil.performCutThrough (transactions.flatMap fun tx => tx.body.inputs)
      (transactions.flatMap fun tx => tx.body.outputs)).2 ++ coinbaseOutputs)
  /-- Their kernels, and those of the coinbase. -/
  kernels : block.body.kernels = sortByHash (TransactionKernel.getHash G)
    ((transactions.flatMap fun tx => tx.body.kernels) ++ coinbaseKernels)
  /-- The outputs of the coinbase are marked … -/
  coinbaseOutputs : ∀ output ∈ coinbaseOutputs, output.features.isCoinbase = true
  /-- … and so are its kernels. -/
  coinbaseKernels : ∀ kernel ∈ coinbaseKernels, kernel.features.isCoinbase = true

variable (G) in
/-- No input, no output and no kernel occurs twice. They are compared by their hashes, as
`operator==` of outputs and kernels does. -/
structure Separate (transactions : List Transaction) (coinbaseOutputs : List TransactionOutput)
    (coinbaseKernels : List TransactionKernel) : Prop where
  /-- Inputs. -/
  inputs : ((transactions.flatMap fun tx => tx.body.inputs).map
    (TransactionInput.getHash G)).Nodup
  /-- Outputs. -/
  outputs : (((transactions.flatMap fun tx => tx.body.outputs) ++ coinbaseOutputs).map
    (TransactionOutput.getHash G)).Nodup
  /-- Kernels. -/
  kernels : (((transactions.flatMap fun tx => tx.body.kernels) ++ coinbaseKernels).map
    (TransactionKernel.getHash G)).Nodup

/-- What `TransactionPool::AddTransaction` sees to: no coinbase, and a fee, so a kernel. -/
structure Pooled (tx : Transaction) : Prop where
  /-- Nothing is marked as a coinbase. -/
  features : TransactionValidator.validateFeatures tx.body = .ok ()
  /-- There is a kernel. -/
  kernels : tx.body.kernels ≠ []

variable (G) in
/-- Two kernels of the mempool and the block with the same short id are the same. -/
def NoCollision (memPool : Pool) (block : FullBlock) (nonce : UInt64) : Prop :=
  ∀ k ∈ (memPool.flatMap fun e => e.transaction.body.kernels) ++ block.body.kernels,
    ∀ k' ∈ (memPool.flatMap fun e => e.transaction.body.kernels) ++ block.body.kernels,
      ShortId.create G (k.getHash G) (block.getHash G) nonce =
          ShortId.create G (k'.getHash G) (block.getHash G) nonce →
        k.getHash G = k'.getHash G

theorem Pooled.not_isCoinbase {tx : Transaction} (h : Pooled tx) :
    (∀ output ∈ tx.body.outputs, output.features.isCoinbase = false) ∧
      ∀ kernel ∈ tx.body.kernels, kernel.features.isCoinbase = false := by
  have hfeatures := h.features
  rw [TransactionValidator.validateFeatures] at hfeatures
  obtain ⟨⟨⟩, houtputs, hkernels⟩ := Exec.of_bind_eq_ok hfeatures
  rw [require] at houtputs hkernels
  constructor
  · intro output houtput
    by_contra hcoinbase
    rw [if_neg (by simpa using ⟨output, houtput, by simpa using hcoinbase⟩)] at houtputs
    cases houtputs
  · intro kernel hkernel
    by_contra hcoinbase
    rw [if_neg (by simpa using ⟨kernel, hkernel, by simpa using hcoinbase⟩)] at hkernels
    cases hkernels

/-! ### What is found in the pool -/

namespace Pool

theorem findMissing_eq (missing : TransactionKernel → Bool) {count : ℕ}
    (kernels : List (Transaction × TransactionKernel)) (found : List Transaction)
    (hfound : found.length < count) :
    findMissing missing count kernels found =
      (found ++ (kernels.filter fun p => missing p.2).map Prod.fst).take count := by
  induction kernels generalizing found with
  | nil => rw [findMissing, List.filter_nil, List.map_nil, List.append_nil,
      List.take_of_length_le hfound.le]
  | cons p kernels ih =>
    obtain ⟨tx, kernel⟩ := p
    rw [findMissing]
    by_cases hmissing : missing kernel = true
    · have hlength : (found ++ [tx]).length = found.length + 1 := by
        rw [List.length_append, List.length_singleton]
      have hfilter : ((tx, kernel) :: kernels).filter (fun p => missing p.2) =
          (tx, kernel) :: kernels.filter fun p => missing p.2 := List.filter_cons_of_pos hmissing
      have happend : found ++ tx :: (kernels.filter fun p => missing p.2).map Prod.fst =
          found ++ [tx] ++ (kernels.filter fun p => missing p.2).map Prod.fst := by
        rw [List.append_assoc, List.singleton_append]
      rw [if_pos hmissing, hfilter, List.map_cons, happend]
      dsimp only
      split
      · next heq => rw [List.take_append_of_le_length heq.ge, List.take_of_length_le heq.le]
      · exact ih _ (by omega)
    · have hfilter : ((tx, kernel) :: kernels).filter (fun p => missing p.2) =
          kernels.filter fun p => missing p.2 := List.filter_cons_of_neg hmissing
      rw [if_neg hmissing, hfilter]
      exact ih found hfound

theorem map_snd_kernelsOf (transactions : List Transaction) :
    (kernelsOf transactions).map Prod.snd = transactions.flatMap fun tx => tx.body.kernels := by
  rw [kernelsOf, List.map_flatMap]
  refine List.flatMap_congr fun tx _ => ?_
  rw [List.map_map]
  exact List.map_id _

theorem mem_kernelsOf_iff {p : Transaction × TransactionKernel} :
    p ∈ kernelsOf transactions ↔ p.1 ∈ transactions ∧ p.2 ∈ p.1.body.kernels := by
  obtain ⟨tx, kernel⟩ := p
  rw [kernelsOf, List.mem_flatMap]
  constructor
  · rintro ⟨tx', htx, hmem⟩
    obtain ⟨kernel', hkernel, heq⟩ := List.mem_map.mp hmem
    cases heq
    exact ⟨htx, hkernel⟩
  · rintro ⟨htx, hkernel⟩
    exact ⟨tx, htx, List.mem_map_of_mem hkernel⟩

/-- **When the kernels that are missing are those of some transactions of the pool**, and of no
others, these transactions are found, once for each of their kernels. -/
theorem of_findMissing (missing : TransactionKernel → Bool) {pool : List Transaction}
    (hpool : pool.Perm (transactions ++ others))
    (hmissing : ∀ k ∈ transactions.flatMap fun tx => tx.body.kernels, missing k = true)
    (hothers : ∀ k ∈ others.flatMap fun tx => tx.body.kernels, missing k = false)
    (hkernels : ∀ tx ∈ transactions, tx.body.kernels ≠ [])
    (hne : (transactions.flatMap fun tx => tx.body.kernels) ≠ []) :
    (findMissing missing (transactions.flatMap fun tx => tx.body.kernels).length
        (kernelsOf pool) []).length =
      (transactions.flatMap fun tx => tx.body.kernels).length ∧
    ∀ tx, tx ∈ findMissing missing (transactions.flatMap fun tx => tx.body.kernels).length
        (kernelsOf pool) [] ↔ tx ∈ transactions := by
  have hperm : ((kernelsOf pool).filter fun p => missing p.2).Perm (kernelsOf transactions) := by
    have hall :
        (kernelsOf transactions).filter (fun p => missing p.2) = kernelsOf transactions := by
      refine List.filter_eq_self.mpr fun p hp => hmissing p.2 ?_
      rw [← map_snd_kernelsOf]
      exact List.mem_map_of_mem hp
    have hnone : (kernelsOf others).filter (fun p => missing p.2) = [] := by
      refine List.filter_eq_nil_iff.mpr fun p hp => ?_
      have hp' : p.2 ∈ others.flatMap fun tx => tx.body.kernels := by
        rw [← map_snd_kernelsOf]
        exact List.mem_map_of_mem hp
      rw [hothers p.2 hp']
      exact Bool.false_ne_true
    have h : (kernelsOf pool).Perm (kernelsOf transactions ++ kernelsOf others) := by
      rw [kernelsOf, kernelsOf, kernelsOf, ← List.flatMap_append]
      exact hpool.flatMap_right _
    have hfilter := h.filter fun p => missing p.2
    rwa [List.filter_append, hall, hnone, List.append_nil] at hfilter
  have hlength : (kernelsOf transactions).length =
      (transactions.flatMap fun tx => tx.body.kernels).length := by
    rw [← map_snd_kernelsOf, List.length_map]
  have hfound := findMissing_eq missing (kernelsOf pool) []
    (List.length_pos_iff.mpr hne)
  rw [List.nil_append, List.take_of_length_le (by rw [List.length_map, hperm.length_eq, hlength])]
    at hfound
  rw [hfound, List.length_map, hperm.length_eq, hlength]
  refine ⟨rfl, fun tx => ?_⟩
  rw [(hperm.map Prod.fst).mem_iff, List.mem_map]
  constructor
  · rintro ⟨p, hp, rfl⟩
    exact (mem_kernelsOf_iff.mp hp).1
  · intro htx
    obtain ⟨kernel, hkernel⟩ := List.exists_mem_of_ne_nil _ (hkernels tx htx)
    exact ⟨(tx, kernel), mem_kernelsOf_iff.mpr ⟨htx, hkernel⟩, rfl⟩

end Pool

/-! ### Cutting through and sorting -/

section CutThrough

open TransactionUtil

theorem performCutThrough_perm {inputs inputs' : List TransactionInput}
    {outputs outputs' : List TransactionOutput} (hinputs : inputs.Perm inputs')
    (houtputs : outputs.Perm outputs') :
    (performCutThrough inputs outputs).1.Perm (performCutThrough inputs' outputs').1 ∧
      (performCutThrough inputs outputs).2.Perm (performCutThrough inputs' outputs').2 :=
  ⟨CutThrough.cut_perm hinputs houtputs, CutThrough.cut_perm houtputs hinputs⟩

/-- Outputs that no input names are not cut, and cut nothing. -/
theorem performCutThrough_append {inputs : List TransactionInput}
    {outputs rest : List TransactionOutput}
    (h : ∀ output ∈ rest, ∀ input ∈ inputs, input.commitment ≠ output.commitment) :
    performCutThrough inputs (outputs ++ rest) =
      ((performCutThrough inputs outputs).1, (performCutThrough inputs outputs).2 ++ rest) := by
  rw [performCutThrough_eq_cut, performCutThrough_eq_cut, Prod.mk.injEq]
  constructor
  · refine CutThrough.cut_congr fun input hinput => ?_
    rw [List.map_append, List.mem_append, or_iff_left]
    intro hmem
    obtain ⟨output, houtput, heq⟩ := List.mem_map.mp hmem
    exact h output houtput input hinput heq.symm
  · rw [CutThrough.cut_append_left, CutThrough.cut_eq_self fun output houtput input hinput =>
      (h output houtput input hinput).symm]

end CutThrough

/-- A sort by hash depends on the values only when their hashes are different. -/
theorem sortByHash_congr {α : Type} {getHash : α → Hash} {l l' : List α} (h : l.Perm l')
    (hl : (l.map getHash).Nodup) : sortByHash getHash l = sortByHash getHash l' := by
  refine List.sort_key_congr (fun a => (getHash a).value) h ?_
  have hvalue : (fun a => (getHash a).value) = Hash.value ∘ getHash := rfl
  rw [hvalue, ← List.map_map]
  refine hl.map_on ?_
  rintro ⟨a⟩ - ⟨b⟩ - hab
  exact congrArg Hash.mk hab

theorem sortByHash_sortByHash {α : Type} (getHash : α → Hash) (l : List α) :
    sortByHash getHash (sortByHash getHash l) = sortByHash getHash l :=
  List.sort_key_sort_key (fun a => (getHash a).value) l

/-! ### The block comes back -/

namespace MadeOf

open TransactionUtil

variable (h : MadeOf G block transactions coinbaseOutputs coinbaseKernels)
  (hpooled : ∀ tx ∈ transactions, Pooled tx)

include h hpooled

/-- The outputs that the compact block has are those of the coinbase. -/
theorem outputs_createCompactBlock (nonce : UInt64) :
    (CompactBlockFactory.createCompactBlock G block nonce).outputs.Perm coinbaseOutputs := by
  refine (perm_sortByHash _ _).trans ?_
  rw [h.outputs]
  refine ((perm_sortByHash _ _).filter _).trans ?_
  have hnone : ((performCutThrough (transactions.flatMap fun tx => tx.body.inputs)
      (transactions.flatMap fun tx => tx.body.outputs)).2.filter
        fun output => output.features.isCoinbase) = [] := by
    refine List.filter_eq_nil_iff.mpr fun output houtput => ?_
    obtain ⟨tx, htx, hmem⟩ := List.mem_flatMap.mp (List.mem_filter.mp houtput).1
    rw [(hpooled tx htx).not_isCoinbase.1 output hmem]
    exact Bool.false_ne_true
  rw [List.filter_append, hnone, List.nil_append, List.filter_eq_self.mpr h.coinbaseOutputs]

/-- The kernels of a block are those of its transactions, and of the coinbase. -/
theorem filter_kernels :
    (block.body.kernels.filter fun kernel => kernel.features.isCoinbase).Perm coinbaseKernels ∧
      (block.body.kernels.filter fun kernel => !kernel.features.isCoinbase).Perm
        (transactions.flatMap fun tx => tx.body.kernels) := by
  have hplain : ∀ kernel ∈ transactions.flatMap fun tx => tx.body.kernels,
      kernel.features.isCoinbase = false := by
    intro kernel hkernel
    obtain ⟨tx, htx, hmem⟩ := List.mem_flatMap.mp hkernel
    exact (hpooled tx htx).not_isCoinbase.2 kernel hmem
  rw [h.kernels]
  constructor
  · refine ((perm_sortByHash _ _).filter _).trans ?_
    have hnone : ((transactions.flatMap fun tx => tx.body.kernels).filter
        fun kernel => kernel.features.isCoinbase) = [] := by
      refine List.filter_eq_nil_iff.mpr fun kernel hkernel => ?_
      rw [hplain kernel hkernel]
      exact Bool.false_ne_true
    rw [List.filter_append, hnone, List.nil_append, List.filter_eq_self.mpr h.coinbaseKernels]
  · refine ((perm_sortByHash _ _).filter _).trans ?_
    have hnone : (coinbaseKernels.filter fun kernel => !kernel.features.isCoinbase) = [] := by
      refine List.filter_eq_nil_iff.mpr fun kernel hkernel => ?_
      rw [h.coinbaseKernels kernel hkernel]
      exact Bool.false_ne_true
    have hall : ((transactions.flatMap fun tx => tx.body.kernels).filter
        fun kernel => !kernel.features.isCoinbase) =
          transactions.flatMap fun tx => tx.body.kernels := by
      refine List.filter_eq_self.mpr fun kernel hkernel => ?_
      rw [hplain kernel hkernel, Bool.not_false]
    rw [List.filter_append, hnone, List.append_nil, hall]

/-- **From the right transactions, in any order and any number, the block comes back.** -/
theorem hydrateWith_eq (hseparate : Separate G transactions coinbaseOutputs coinbaseKernels)
    (huncut : ∀ output ∈ coinbaseOutputs, ∀ input ∈ transactions.flatMap fun tx => tx.body.inputs,
      input.commitment ≠ output.commitment) (nonce : UInt64) {found : List Transaction}
    (hfound : ∀ tx, tx ∈ found ↔ tx ∈ transactions) :
    BlockHydrator.hydrateWith G (CompactBlockFactory.createCompactBlock G block nonce) found =
      block := by
  have hmem : ∀ {α : Type} (f : Transaction → List α) (a : α),
      a ∈ found.flatMap f ↔ a ∈ transactions.flatMap f := by
    intro α f a
    simp only [List.mem_flatMap, hfound]
  have hcoinbase := h.outputs_createCompactBlock hpooled nonce
  have hinputs : (List.keepNew (TransactionInput.getHash G) []
      (found.flatMap fun tx => tx.body.inputs)).Perm
        (transactions.flatMap fun tx => tx.body.inputs) :=
    List.perm_keepNew (hmem _) hseparate.inputs
  have houtputs : (List.keepNew (TransactionOutput.getHash G) []
      ((found.flatMap fun tx => tx.body.outputs) ++
        (CompactBlockFactory.createCompactBlock G block nonce).outputs)).Perm
          ((transactions.flatMap fun tx => tx.body.outputs) ++ coinbaseOutputs) := by
    refine List.perm_keepNew (fun a => ?_) hseparate.outputs
    rw [List.mem_append, List.mem_append, hmem, hcoinbase.mem_iff]
  have hkernels : (List.keepNew (TransactionKernel.getHash G) []
      ((found.flatMap fun tx => tx.body.kernels) ++
        (CompactBlockFactory.createCompactBlock G block nonce).kernels)).Perm
          ((transactions.flatMap fun tx => tx.body.kernels) ++ coinbaseKernels) := by
    refine List.perm_keepNew (fun a => ?_) hseparate.kernels
    have hcb : (CompactBlockFactory.createCompactBlock G block nonce).kernels.Perm
        coinbaseKernels :=
      (perm_sortByHash _ _).trans (h.filter_kernels hpooled).1
    rw [List.mem_append, List.mem_append, hmem, hcb.mem_iff]
  obtain ⟨hcutInputs, hcutOutputs⟩ := performCutThrough_perm hinputs houtputs
  rw [performCutThrough_append huncut] at hcutInputs hcutOutputs
  have hbody : (BlockHydrator.hydrateWith G
      (CompactBlockFactory.createCompactBlock G block nonce) found).body = block.body := by
    rw [BlockHydrator.hydrateWith]
    simp only [List.foldl_keepNew, ← List.keepNew_append]
    rw [TransactionBody.create, sortByHash_sortByHash, sortByHash_sortByHash,
      sortByHash_sortByHash]
    have h1 := sortByHash_congr hcutInputs.symm
      (hseparate.inputs.sublist (List.Sublist.map _ List.filter_sublist))
    have h2 := sortByHash_congr hcutOutputs.symm (hseparate.outputs.sublist
      (List.Sublist.map _ (List.Sublist.append List.filter_sublist (List.Sublist.refl _))))
    have h3 := sortByHash_congr hkernels.symm hseparate.kernels
    rw [← h1, ← h2, ← h3, ← h.inputs, ← h.outputs, ← h.kernels]
  have hheader : (BlockHydrator.hydrateWith G
      (CompactBlockFactory.createCompactBlock G block nonce) found).header = block.header := rfl
  generalize BlockHydrator.hydrateWith G
    (CompactBlockFactory.createCompactBlock G block nonce) found = result at hbody hheader
  obtain ⟨header, body⟩ := result
  obtain ⟨header', body'⟩ := block
  cases hheader
  cases hbody
  rfl

end MadeOf

variable (G) in
/-- The block is made of transactions of the mempool, without a collision of short ids. -/
structure MadeOfPool (memPool : Pool) (block : FullBlock) (nonce : UInt64)
    (transactions others : List Transaction) (coinbaseOutputs : List TransactionOutput)
    (coinbaseKernels : List TransactionKernel) : Prop where
  /-- The body of the block. -/
  madeOf : MadeOf G block transactions coinbaseOutputs coinbaseKernels
  /-- Nothing occurs twice in it. -/
  separate : Separate G transactions coinbaseOutputs coinbaseKernels
  /-- The transactions were let into a pool. -/
  pooled : ∀ tx ∈ transactions, Pooled tx
  /-- They are in the mempool, among others. -/
  inPool : (memPool.map TxPoolEntry.transaction).Perm (transactions ++ others)
  /-- No two kernels have the same short id. -/
  noCollision : NoCollision G memPool block nonce

variable (G) in
/-- The other transactions of the mempool have none of the kernels. -/
def OnlyTheirs (transactions others : List Transaction) : Prop :=
  ∀ k ∈ others.flatMap fun tx => tx.body.kernels,
    k.getHash G ∉ (transactions.flatMap fun tx => tx.body.kernels).map
      (TransactionKernel.getHash G)

/-- No output of the coinbase has the commitment of an input of the transactions. -/
def Uncut (transactions : List Transaction) (coinbaseOutputs : List TransactionOutput) : Prop :=
  ∀ output ∈ coinbaseOutputs, ∀ input ∈ transactions.flatMap fun tx => tx.body.inputs,
    input.commitment ≠ output.commitment

/-- **A compact block gives the block back**, when the other transactions of the mempool have
none of its kernels and its coinbase is not cut through. -/
theorem hydrate_createCompactBlock {memPool : Pool} {nonce : UInt64}
    (hmade : MadeOfPool G memPool block nonce transactions others coinbaseOutputs coinbaseKernels)
    (hothers : OnlyTheirs G transactions others) (huncut : Uncut transactions coinbaseOutputs) :
    BlockHydrator.hydrate G memPool (CompactBlockFactory.createCompactBlock G block nonce) =
      some block := by
  obtain ⟨h, hseparate, hpooled, hpool, hids⟩ := hmade
  set names := CompactBlockFactory.createCompactBlock G block nonce with hnames
  have hkernels := (h.filter_kernels hpooled).2
  have hshortIds : names.shortIds.Perm ((transactions.flatMap fun tx => tx.body.kernels).map
      fun k => ShortId.create G (k.getHash G) (block.getHash G) nonce) :=
    (perm_sortByHash _ _).trans (hkernels.map _)
  -- A kernel of the transactions is a kernel of the mempool.
  have hinPool : ∀ k ∈ (transactions ++ others).flatMap fun tx => tx.body.kernels,
      k ∈ (memPool.flatMap fun e => e.transaction.body.kernels) ++ block.body.kernels := by
    intro k hk
    refine List.mem_append_left _ ?_
    have hmap : (memPool.flatMap fun e => e.transaction.body.kernels) =
        (memPool.map TxPoolEntry.transaction).flatMap fun tx => tx.body.kernels := by
      rw [List.flatMap_map]
    rw [hmap, (hpool.flatMap_right _).mem_iff]
    exact hk
  have hmine : ∀ k ∈ transactions.flatMap fun tx => tx.body.kernels,
      k ∈ (memPool.flatMap fun e => e.transaction.body.kernels) ++ block.body.kernels := by
    intro k hk
    refine hinPool k ?_
    rw [List.flatMap_append]
    exact List.mem_append_left _ hk
  have hnodup : ((transactions.flatMap fun tx => tx.body.kernels).map
      (TransactionKernel.getHash G)).Nodup := by
    have hall := hseparate.kernels
    rw [List.map_append] at hall
    exact (List.nodup_append.mp hall).1
  have hidsNodup : names.shortIds.Nodup := by
    rw [hshortIds.nodup_iff]
    refine (List.Nodup.of_map _ hnodup).map_on fun k hk k' hk' heq => ?_
    exact List.inj_on_of_nodup_map hnodup hk hk' (hids k (hmine k hk) k' (hmine k' hk') heq)
  rw [BlockHydrator.hydrate]
  split
  · next hempty =>
    have hnone : (transactions.flatMap fun tx => tx.body.kernels) = [] := by
      rw [List.isEmpty_iff] at hempty
      rw [hempty] at hshortIds
      exact List.map_eq_nil_iff.mp hshortIds.nil_eq.symm
    refine congrArg some (h.hydrateWith_eq hpooled hseparate huncut nonce fun tx => ?_)
    constructor
    · rintro ⟨⟩
    · intro htx
      obtain ⟨kernel, hkernel⟩ := List.exists_mem_of_ne_nil _ (hpooled tx htx).kernels
      have hmem : kernel ∈ transactions.flatMap fun tx => tx.body.kernels :=
        List.mem_flatMap.mpr ⟨tx, htx, hkernel⟩
      rw [hnone] at hmem
      cases hmem
  · next hne =>
    have hnonempty : (transactions.flatMap fun tx => tx.body.kernels) ≠ [] := by
      intro hnone
      rw [hnone] at hshortIds
      exact hne (List.isEmpty_iff.mpr hshortIds.eq_nil)
    have hlength : names.shortIds.length =
        (transactions.flatMap fun tx => tx.body.kernels).length := by
      rw [hshortIds.length_eq, List.length_map]
    obtain ⟨hcount, hfound⟩ := Pool.of_findMissing
      (fun kernel => decide
        (ShortId.create G (kernel.getHash G) (block.getHash G) nonce ∈ names.shortIds)) hpool
      (fun k hk => by
        rw [decide_eq_true_eq, hshortIds.mem_iff]
        exact List.mem_map_of_mem hk)
      (fun k hk => by
        rw [decide_eq_false_iff_not, hshortIds.mem_iff]
        intro hmem
        obtain ⟨k', hk', heq⟩ := List.mem_map.mp hmem
        refine hothers k hk ?_
        rw [← hids k' (hmine k' hk') k (hinPool k (by
          rw [List.flatMap_append]
          exact List.mem_append_right _ hk)) heq]
        exact List.mem_map_of_mem hk')
      (fun tx htx => (hpooled tx htx).kernels) hnonempty
    have hhash : names.header.getHash G = block.getHash G := rfl
    have hnonce : names.nonce = nonce := rfl
    dsimp only
    rw [List.dedup_eq_self.mpr hidsNodup, Pool.getTransactionsByShortId, hlength, hhash, hnonce,
      if_pos hcount]
    exact congrArg some (h.hydrateWith_eq hpooled hseparate huncut nonce hfound)

/-! ### A mempool with an aggregate, and a coinbase that is cut -/

section SmallNet

open SmallNet

theorem smallShift_lt : (0 : UInt8).toNat < 16 := by decide

theorem smallFee_lt : (10 : UInt64).toNat < 2 ^ 40 := by decide

/-- A transaction with one input, one output and one kernel. -/
def smallTransaction (input output : ℕ) : Transaction where
  offset := noBlind
  body :=
    { inputs := [⟨.default, commitment input⟩]
      outputs := [⟨.default, commitment output, rangeProof⟩]
      kernels :=
        [{ features := .defaultKernel
           fee := ⟨0, 10, smallShift_lt, smallFee_lt⟩
           lockHeight := 0
           excessCommitment := commitment (output + 10 - input)
           excessSignature := signature }] }

/-- The body of a block made of some transactions and a coinbase. -/
def bodyOf (transactions : List Transaction) (coinbaseOutputs : List TransactionOutput)
    (coinbaseKernels : List TransactionKernel) : TransactionBody :=
  let cut := TransactionUtil.performCutThrough
    (transactions.flatMap fun tx => tx.body.inputs)
    (transactions.flatMap fun tx => tx.body.outputs)
  TransactionBody.create (smallNet .mainnet) cut.1 (cut.2 ++ coinbaseOutputs)
    ((transactions.flatMap fun tx => tx.body.kernels) ++ coinbaseKernels)

/-- The first transaction, a second one and both of them in one. -/
def firstTransaction : Transaction := smallTransaction 100 95

/-- See `GrinPlusPlus.firstTransaction`. -/
def secondTransaction : Transaction := smallTransaction 200 194

/-- See `GrinPlusPlus.firstTransaction`. -/
def bothTransactions : Transaction :=
  ⟨noBlind, bodyOf [firstTransaction, secondTransaction] [] []⟩

/-- A third one. -/
def thirdTransaction : Transaction := smallTransaction 300 293

/-- The block of some transactions, with the output of a coinbase. -/
def smallBlock (transactions : List Transaction) (output : TransactionOutput) : FullBlock :=
  ⟨genesisHeader, bodyOf transactions [output] [coinbaseKernel 7]⟩

/-- A mempool with some transactions. -/
def poolOf (transactions : List Transaction) : Pool :=
  transactions.map fun tx => ⟨tx, .fluffed, 0⟩

theorem madeOf_smallBlock (transactions : List Transaction) {output : TransactionOutput}
    (houtput : output.features.isCoinbase = true) :
    MadeOf (smallNet .mainnet) (smallBlock transactions output) transactions [output]
      [coinbaseKernel 7] where
  inputs := rfl
  outputs := rfl
  kernels := rfl
  coinbaseOutputs o ho := by
    rw [List.mem_singleton.mp ho]
    exact houtput
  coinbaseKernels k hk := by
    rw [List.mem_singleton.mp hk]
    rfl

theorem pooled_firstTransaction : Pooled firstTransaction :=
  ⟨rfl, by rintro ⟨⟩⟩

theorem pooled_bothTransactions : Pooled bothTransactions :=
  ⟨by decide +kernel, by decide +kernel⟩

theorem madeOfPool_bothTransactions :
    MadeOfPool (smallNet .mainnet) (poolOf [thirdTransaction, bothTransactions])
      (smallBlock [bothTransactions] (coinbaseOutput 7)) 5 [bothTransactions] [thirdTransaction]
      [coinbaseOutput 7] [coinbaseKernel 7] where
  madeOf := madeOf_smallBlock [bothTransactions] rfl
  separate := ⟨by decide +kernel, by decide +kernel, by decide +kernel⟩
  pooled tx htx := by
    rw [List.mem_singleton.mp htx]
    exact pooled_bothTransactions
  inPool := .swap ..
  noCollision := by
    show ∀ k ∈ _, ∀ k' ∈ _, _
    decide +kernel

/-- A transaction with two kernels comes back from behind another one. -/
theorem hydrate_createCompactBlock_bothTransactions :
    BlockHydrator.hydrate (smallNet .mainnet) (poolOf [thirdTransaction, bothTransactions])
        (CompactBlockFactory.createCompactBlock (smallNet .mainnet)
          (smallBlock [bothTransactions] (coinbaseOutput 7)) 5) =
      some (smallBlock [bothTransactions] (coinbaseOutput 7)) :=
  hydrate_createCompactBlock madeOfPool_bothTransactions
    (by
      show ∀ k ∈ _, _ ∉ _
      decide +kernel)
    (by
      show ∀ output ∈ _, ∀ input ∈ _, _
      decide +kernel)

/-- An output of a coinbase with the commitment of the first input. -/
def cutOutput : TransactionOutput :=
  ⟨.coinbaseOutput, commitment 100, rangeProof⟩

/-- **Without the two conditions another block comes back**: one with the aggregate that was
found first, and one whose coinbase was cut through. -/
theorem not_hydrate_bothTransactions :
    (∃ memPool block nonce transactions others coinbaseOutputs coinbaseKernels,
      MadeOfPool (smallNet .mainnet) memPool block nonce transactions others coinbaseOutputs
          coinbaseKernels ∧
        Uncut transactions coinbaseOutputs ∧
        BlockHydrator.hydrate (smallNet .mainnet) memPool
          (CompactBlockFactory.createCompactBlock (smallNet .mainnet) block nonce) ≠ some block) ∧
    ∃ memPool block nonce transactions others coinbaseOutputs coinbaseKernels,
      MadeOfPool (smallNet .mainnet) memPool block nonce transactions others coinbaseOutputs
          coinbaseKernels ∧
        OnlyTheirs (smallNet .mainnet) transactions others ∧
        BlockHydrator.hydrate (smallNet .mainnet) memPool
          (CompactBlockFactory.createCompactBlock (smallNet .mainnet) block nonce) ≠
            some block := by
  have hpooled : ∀ tx ∈ [firstTransaction], Pooled tx := by
    intro tx htx
    rw [List.mem_singleton.mp htx]
    exact pooled_firstTransaction
  constructor
  · refine ⟨poolOf [bothTransactions, firstTransaction],
      smallBlock [firstTransaction] (coinbaseOutput 7), 5, [firstTransaction],
      [bothTransactions], [coinbaseOutput 7], [coinbaseKernel 7],
      ⟨madeOf_smallBlock [firstTransaction] rfl,
        ⟨by decide +kernel, by decide +kernel, by decide +kernel⟩, hpooled, .swap .., ?_⟩, ?_, ?_⟩
    · show ∀ k ∈ _, ∀ k' ∈ _, _
      decide +kernel
    · show ∀ output ∈ _, ∀ input ∈ _, _
      decide +kernel
    · decide +kernel
  · refine ⟨poolOf [firstTransaction], smallBlock [firstTransaction] cutOutput, 5,
      [firstTransaction], [], [cutOutput], [coinbaseKernel 7],
      ⟨madeOf_smallBlock [firstTransaction] rfl,
        ⟨by decide +kernel, by decide +kernel, by decide +kernel⟩, hpooled, .refl _, ?_⟩, ?_, ?_⟩
    · show ∀ k ∈ _, ∀ k' ∈ _, _
      decide +kernel
    · rintro k ⟨⟩
    · decide +kernel

end SmallNet

end GrinPlusPlus
