import GrinPlusPlus.Core.WireCodec
import GrinPlusPlus.Lib.CutThrough
import GrinPlusPlus.Pmmr.TxHashSet

/-!
# The transaction pools

`TransactionPool`: the mempool and the stempool. A transaction enters through `AddTransaction`,
after checks of its own; `GetTransactionToStem` and `GetTransactionToFluff` take transactions of
the stempool that are valid together with the mempool, and the second one moves them there, as
one aggregate.

`ReconcileBlock` drops from both pools what a block makes invalid. It is not part of any batch –
what it drops is gone, whatever becomes of the block.

`Pool::ReconcileBlock` empties the pool before it looks for the transactions that are still
valid, and aggregating them can throw; the pool is then left empty
(`GrinPlusPlus.Pool.reconcileBlock`).
-/

namespace GrinPlusPlus

/-- `EDandelionStatus`. -/
inductive EDandelionStatus
  | toStem
  | stemmed
  | toFluff
  | fluffed
deriving DecidableEq

/-- `EPoolType`. -/
inductive EPoolType
  | stemPool
  | memPool
deriving DecidableEq

/-- `EAddTransactionStatus`. -/
inductive EAddTransactionStatus
  | added
  | duplTx
  | lowFee
  | txInvalid
  | notAdded
deriving DecidableEq

/-- `Config`, as far as the pools read it. -/
structure Config where
  /-- `GetFeeBase`. -/
  feeBase : UInt64
  /-- `GetStemProbability`. -/
  stemProbability : UInt8

/-- `TxPoolEntry`: a transaction with its dandelion status and the time it came in. -/
structure TxPoolEntry where
  /-- The transaction. -/
  transaction : Transaction
  /-- The status. -/
  status : EDandelionStatus
  /-- The time. -/
  timestamp : ℤ
deriving DecidableEq

/-- `Pool`: its entries. -/
abbrev Pool := List TxPoolEntry

/-- `TransactionPool`. -/
structure TransactionPool where
  /-- `m_memPool`. -/
  memPool : Pool
  /-- `m_stemPool`. -/
  stemPool : Pool
deriving DecidableEq

section

variable (G : Global)

/-- `TransactionBody::GetFeeShift`. -/
def TransactionBody.getFeeShift (b : TransactionBody) : UInt8 :=
  b.kernels.foldl (fun feeShift k => if feeShift < k.fee.shift then k.fee.shift else feeShift) 0

/-- `Transaction::FeeMeetsMinimum`, in 64 bits. -/
def Transaction.feeMeetsMinimum (config : Config) (tx : Transaction) (blockHeight : ℕ) : Bool :=
  let minFee := config.feeBase * UInt64.ofNat (tx.body.calcWeight G.env blockHeight)
  decide (minFee <<< tx.body.getFeeShift.toUInt64 ≤ tx.body.calcFee)

namespace TransactionUtil

/-- `TransactionUtil::PerformCutThrough`. -/
def performCutThrough (inputs : List TransactionInput) (outputs : List TransactionOutput) :
    List TransactionInput × List TransactionOutput :=
  (inputs.filter fun i => !(outputs.map TransactionOutput.commitment).contains i.commitment,
    outputs.filter fun o => !(inputs.map TransactionInput.commitment).contains o.commitment)

/-- What is left of the inputs and the outputs. -/
theorem performCutThrough_eq_cut (inputs : List TransactionInput)
    (outputs : List TransactionOutput) :
    performCutThrough inputs outputs =
      (CutThrough.cut TransactionInput.commitment TransactionOutput.commitment inputs outputs,
        CutThrough.cut TransactionOutput.commitment TransactionInput.commitment outputs inputs) :=
  rfl

/-- What has no commitment in common stays. -/
theorem performCutThrough_eq_self {inputs : List TransactionInput}
    {outputs : List TransactionOutput}
    (h : ∀ i ∈ inputs, ∀ o ∈ outputs, i.commitment ≠ o.commitment) :
    performCutThrough inputs outputs = (inputs, outputs) := by
  rw [performCutThrough_eq_cut, CutThrough.cut_eq_self h,
    CutThrough.cut_eq_self fun o ho i hi => (h i hi o ho).symm]

/-- `TransactionUtil::Aggregate`. -/
def aggregate (transactions : List Transaction) : Except Exc Transaction :=
  match transactions with
  | [tx] => .ok tx
  | _ => do
    let (inputs, outputs) := performCutThrough
      (transactions.flatMap fun tx => tx.body.inputs)
      (transactions.flatMap fun tx => tx.body.outputs)
    let kernels := transactions.flatMap fun tx => tx.body.kernels
    let totalKernelOffset ← orThrow
      (G.addBlindingFactors (transactions.map Transaction.offset) [])
      (.crypto "secp256k1_pedersen_blind_sum failed.")
    .ok ⟨totalKernelOffset,
      sortByHash (TransactionInput.getHash G) inputs,
      sortByHash (TransactionOutput.getHash G) outputs,
      sortByHash (TransactionKernel.getHash G) kernels⟩

end TransactionUtil

namespace ValidTransactionFinder

/-- `ValidTransactionFinder::IsValidTransaction`: an exception is an answer. -/
def isValidTransaction (s : UtxoState) (tx : Transaction) : Bool :=
  match TransactionValidator.validate G tx
    (s.txHashSet.getFlushedBlockHeader.getHeight + 1) with
  | .error _ => false
  | .ok _ => s.txHashSet.isValid G s.blockDB tx

/-- `ValidTransactionFinder::FindValidTransactions`. -/
def findValidTransactions (s : UtxoState) (extra : Option Transaction) :
    List Transaction → List Transaction → Except Exc (List Transaction)
  | [], valid => .ok valid
  | tx :: transactions, valid => do
    let aggregated ← TransactionUtil.aggregate G (valid ++ extra.toList ++ [tx])
    if isValidTransaction G s aggregated then
      findValidTransactions s extra transactions (valid ++ [tx])
    else findValidTransactions s extra transactions valid

/-- `ValidTransactionFinder::FindValidTransactions` of the pointers to transactions: what is
found is told apart by more than the transaction. -/
def findValidBy {α : Type} (transaction : α → Transaction) (s : UtxoState)
    (extra : Option Transaction) : List α → List α → Except Exc (List α)
  | [], valid => .ok valid
  | p :: pointers, valid => do
    let aggregated ← TransactionUtil.aggregate G
      (valid.map transaction ++ extra.toList ++ [transaction p])
    if isValidTransaction G s aggregated then
      findValidBy transaction s extra pointers (valid ++ [p])
    else findValidBy transaction s extra pointers valid

end ValidTransactionFinder

namespace Pool

/-- `Pool::AddTransaction`, at some time. -/
def addTransaction (now : ℤ) (tx : Transaction) (status : EDandelionStatus) (p : Pool) : Pool :=
  p ++ [⟨tx, status, now⟩]

/-- `Pool::ContainsTransaction`: transactions are compared by their hashes. -/
def containsTransaction (tx : Transaction) (p : Pool) : Bool :=
  p.any fun e => decide (e.transaction.getHash G = tx.getHash G)

/-- `Pool::RemoveTransaction`: the first one goes. -/
def removeTransaction (tx : Transaction) (p : Pool) : Pool :=
  p.eraseP fun e => decide (tx.getHash G = e.transaction.getHash G)

/-- `Pool::FindTransactionsByStatus`. -/
def findTransactionsByStatus (status : EDandelionStatus) (p : Pool) : List Transaction :=
  (p.filter fun e => e.status = status).map TxPoolEntry.transaction

/-- `Pool::FindTransactionsByStatus`, with the places of the transactions in the pool, which
stand for the pointers. -/
def findPointersByStatus (status : EDandelionStatus) (p : Pool) : List (TxPoolEntry × ℕ) :=
  p.zipIdx.filter fun e => e.1.status = status

/-- `Pool::ChangeStatus`, which compares pointers. -/
def changeStatus (pointers : List (TxPoolEntry × ℕ)) (status : EDandelionStatus) (p : Pool) :
    Pool :=
  p.zipIdx.map fun e => if e ∈ pointers then { e.1 with status := status } else e.1

/-- `Pool::ShouldEvict`. -/
def shouldEvict (tx : Transaction) (block : FullBlock) : Bool :=
  tx.body.inputs.any (fun i => i ∈ block.body.inputs) ||
    tx.body.kernels.any fun k =>
      block.body.kernels.any fun k' => decide (k'.getHash G = k.getHash G)

/-- `Pool::ReconcileBlock`. -/
def reconcileBlock (s : UtxoState) (block : FullBlock) (extra : Option Transaction)
    (p : Pool) : Except Exc Unit × Pool :=
  let filtered := p.filter fun e => !shouldEvict G e.transaction block
  match ValidTransactionFinder.findValidTransactions G s extra
    (filtered.map TxPoolEntry.transaction) [] with
  | .error e => (.error e, [])
  | .ok valid =>
    (.ok (), valid.filterMap fun tx =>
      filtered.find? fun e => e.transaction.getHash G = tx.getHash G)

/-- `Pool::Aggregate`. -/
def aggregate (p : Pool) : Except Exc (Option Transaction) :=
  if p.isEmpty then .ok none
  else do
    let tx ← TransactionUtil.aggregate G (p.map TxPoolEntry.transaction)
    .ok (some tx)

end Pool

namespace TransactionPool

/-- `TransactionPool::AddTransaction`, with the number that was drawn and the time. -/
def addTransaction (config : Config) (db : BlockDB) (txHashSet : Option TxHashSet)
    (tx : Transaction) (poolType : EPoolType) (lastConfirmedBlock : BlockHeader)
    (random : UInt8) (now : ℤ) (p : TransactionPool) :
    EAddTransactionStatus × TransactionPool :=
  let nextBlockHeight := lastConfirmedBlock.getHeight + 1
  if poolType = .memPool ∧ p.memPool.containsTransaction G tx = true then (.duplTx, p)
  else if tx.feeMeetsMinimum G config nextBlockHeight = false then (.lowFee, p)
  else if ∃ kernel ∈ tx.body.kernels, nextBlockHeight < kernel.lockHeight.toNat then
    (.notAdded, p)
  else
    match TransactionValidator.validate G tx nextBlockHeight with
    | .error _ => (.txInvalid, p)
    | .ok _ =>
      match txHashSet with
      | none => (.notAdded, p)
      | some t =>
        if t.isValid G db tx = false then (.notAdded, p)
        else
          match poolType with
          | .memPool =>
            (.added, ⟨p.memPool.addTransaction now tx .fluffed,
              p.stemPool.removeTransaction G tx⟩)
          | .stemPool =>
            (.added,
              { p with
                stemPool := p.stemPool.addTransaction now tx
                  (if random ≤ config.stemProbability then .toStem else .toFluff) })

/-- The end of a call that changes the pools last: an exception leaves them as they were. -/
def unlessThrown {α : Type} (p : TransactionPool) (x : Except Exc (α × TransactionPool)) :
    Except Exc α × TransactionPool :=
  match x with
  | .error e => (.error e, p)
  | .ok (a, q) => (.ok a, q)

/-- `TransactionPool::GetTransactionToStem`. -/
def getTransactionToStem (s : UtxoState) (p : TransactionPool) :
    Except Exc (Option Transaction) × TransactionPool :=
  let transactionsToStem := p.stemPool.findPointersByStatus .toStem
  if transactionsToStem.isEmpty then (.ok none, p)
  else
    p.unlessThrown do
      let memPoolAggTx ← p.memPool.aggregate G
      let valid ← ValidTransactionFinder.findValidBy G (fun e => e.1.transaction) s memPoolAggTx
        transactionsToStem []
      if valid.isEmpty then .ok (none, p)
      else do
        let transactionToStem ← TransactionUtil.aggregate G
          (valid.map fun e => e.1.transaction)
        .ok (some transactionToStem,
          { p with stemPool := p.stemPool.changeStatus valid .stemmed })

/-- `TransactionPool::GetTransactionToFluff`. -/
def getTransactionToFluff (now : ℤ) (s : UtxoState) (p : TransactionPool) :
    Except Exc (Option Transaction) × TransactionPool :=
  let transactionsToFluff := p.stemPool.findTransactionsByStatus .toFluff
  if transactionsToFluff.isEmpty then (.ok none, p)
  else
    p.unlessThrown do
      let memPoolAggTx ← p.memPool.aggregate G
      let valid ← ValidTransactionFinder.findValidTransactions G s memPoolAggTx
        transactionsToFluff []
      if valid.isEmpty then .ok (none, p)
      else do
        let transactionToFluff ← TransactionUtil.aggregate G valid
        .ok (some transactionToFluff,
          ⟨p.memPool.addTransaction now transactionToFluff .fluffed,
            valid.foldl (fun stemPool tx => stemPool.removeTransaction G tx) p.stemPool⟩)

end TransactionPool

/-- `TransactionPool::ReconcileBlock`. -/
def TransactionPool.reconcileBlock (s : UtxoState) (block : FullBlock) (p : TransactionPool) :
    Except Exc Unit × TransactionPool :=
  match Pool.reconcileBlock G s block none p.memPool with
  | (.error e, memPool) => (.error e, { p with memPool := memPool })
  | (.ok _, memPool) =>
    match Pool.aggregate G memPool with
    | .error e => (.error e, { p with memPool := memPool })
    | .ok extra =>
      let (result, stemPool) := Pool.reconcileBlock G s block extra p.stemPool
      (result, ⟨memPool, stemPool⟩)

end

/-! ### What a reconciliation can do to the pools -/

variable {G : Global} {s : UtxoState} {block : FullBlock} {extra : Option Transaction}

/-- The transactions that stay valid are found in the order of the pool. -/
theorem ValidTransactionFinder.sublist_of_findValidTransactions
    {transactions valid found : List Transaction}
    (h : findValidTransactions G s extra transactions valid = .ok found) :
    ∃ l, found = valid ++ l ∧ l.Sublist transactions := by
  induction transactions generalizing valid with
  | nil =>
    cases h
    exact ⟨[], by rw [List.append_nil], List.Sublist.slnil⟩
  | cons tx transactions ih =>
    rw [findValidTransactions] at h
    obtain ⟨aggregated, -, h⟩ := Exec.of_bind_eq_ok h
    split at h
    · obtain ⟨l, rfl, hl⟩ := ih h
      exact ⟨tx :: l, by rw [List.append_assoc, List.singleton_append], hl.cons_cons tx⟩
    · obtain ⟨l, rfl, hl⟩ := ih h
      exact ⟨l, rfl, hl.cons tx⟩

/-- A pool with entries of another one, and not more of them. -/
def Pool.Shrinks (p q : Pool) : Prop :=
  q ⊆ p ∧ q.length ≤ p.length

theorem Pool.Shrinks.refl (p : Pool) : Pool.Shrinks p p :=
  ⟨fun _ h => h, le_rfl⟩

theorem Pool.Shrinks.trans {p q r : Pool} (h : Pool.Shrinks p q) (h' : Pool.Shrinks q r) :
    Pool.Shrinks p r :=
  ⟨fun _ he => h.1 (h'.1 he), h'.2.trans h.2⟩

namespace Pool

variable (s block extra)

/-- What a pool is after a block: empty, or the entries of some of its transactions. -/
theorem reconcileBlock_cases (p : Pool) :
    (reconcileBlock G s block extra p).2 = [] ∨
      ∃ (filtered : Pool) (valid : List Transaction), filtered.Sublist p ∧
        valid.Sublist (filtered.map TxPoolEntry.transaction) ∧
        (reconcileBlock G s block extra p).2 = valid.filterMap fun tx =>
          filtered.find? fun e => e.transaction.getHash G = tx.getHash G := by
  rw [reconcileBlock]
  split
  · exact .inl rfl
  · next valid hvalid =>
    obtain ⟨l, rfl, hl⟩ := ValidTransactionFinder.sublist_of_findValidTransactions hvalid
    exact .inr ⟨_, _, List.filter_sublist, hl, rfl⟩

theorem length_filterMap_find_le {p filtered : Pool} {valid : List Transaction}
    (hfiltered : filtered.Sublist p)
    (hvalid : valid.Sublist (filtered.map TxPoolEntry.transaction))
    (f : Transaction → Option TxPoolEntry) :
    (valid.filterMap f).length ≤ valid.length ∧ valid.length ≤ filtered.length ∧
      filtered.length ≤ p.length := by
  refine ⟨List.length_filterMap_le _ _, ?_, hfiltered.length_le⟩
  have h := hvalid.length_le
  rwa [List.length_map] at h

/-- **A reconciliation only drops.** -/
theorem shrinks_reconcileBlock (p : Pool) :
    Shrinks p (reconcileBlock G s block extra p).2 := by
  rcases reconcileBlock_cases s block extra p with h | ⟨filtered, valid, hfiltered, hvalid, h⟩
  · rw [h]
    exact ⟨List.nil_subset _, Nat.zero_le _⟩
  · rw [h]
    refine ⟨fun e he => ?_, ?_⟩
    · obtain ⟨tx, -, hfind⟩ := List.mem_filterMap.mp he
      exact hfiltered.subset (List.mem_of_find?_eq_some hfind)
    · obtain ⟨h1, h2, h3⟩ := length_filterMap_find_le hfiltered hvalid _
      exact h1.trans (h2.trans h3)

/-- **What is dropped does not come back**: a pool out of which the old one can still be made
is the old one. -/
theorem reconcileBlock_eq_of_shrinks {p : Pool}
    (h : Shrinks (reconcileBlock G s block extra p).2 p) :
    (reconcileBlock G s block extra p).2 = p := by
  rcases reconcileBlock_cases s block extra p with hnil | ⟨filtered, valid, hfiltered, hvalid, heq⟩
  · rw [hnil] at h ⊢
    exact (List.subset_nil.mp h.1).symm
  · rw [heq] at h ⊢
    obtain ⟨h1, h2, h3⟩ := length_filterMap_find_le hfiltered hvalid fun tx =>
      filtered.find? fun e => e.transaction.getHash G = tx.getHash G
    -- All lengths agree, so nothing was filtered out and every transaction is valid.
    obtain rfl : filtered = p := hfiltered.eq_of_length_le (by have := h.2; omega)
    obtain rfl : valid = filtered.map TxPoolEntry.transaction :=
      hvalid.eq_of_length_le (by rw [List.length_map]; have := h.2; omega)
    rw [List.filterMap_map] at h ⊢
    -- Every entry is the first one with its hash.
    have hfirst : ∀ e ∈ filtered,
        (filtered.find? fun a => a.transaction.getHash G = e.transaction.getHash G) = some e := by
      intro e he
      obtain ⟨e', -, hfind⟩ := List.mem_filterMap.mp (h.1 he)
      dsimp only [Function.comp_apply] at hfind
      have hhash := List.find?_some hfind
      rw [decide_eq_true_eq] at hhash
      rw [hhash]
      exact hfind
    calc filtered.filterMap _ = filtered.filterMap some :=
          List.filterMap_congr fun e he => hfirst e he
      _ = filtered := List.filterMap_some

end Pool

namespace TransactionPool

/-- Both pools with entries of the others, and not more of them. -/
structure Shrinks (p q : TransactionPool) : Prop where
  /-- The mempool. -/
  memPool : p.memPool.Shrinks q.memPool
  /-- The stempool. -/
  stemPool : p.stemPool.Shrinks q.stemPool

instance : Std.Refl Shrinks :=
  ⟨fun p => ⟨.refl p.memPool, .refl p.stemPool⟩⟩

instance : IsTrans TransactionPool Shrinks :=
  ⟨fun _ _ _ h h' => ⟨h.memPool.trans h'.memPool, h.stemPool.trans h'.stemPool⟩⟩

variable (s block)

theorem shrinks_reconcileBlock (p : TransactionPool) :
    Shrinks p (p.reconcileBlock G s block).2 := by
  have hmem := Pool.shrinks_reconcileBlock (G := G) s block none p.memPool
  rw [reconcileBlock]
  split
  · next e memPool heq =>
    rw [heq] at hmem
    exact ⟨hmem, .refl _⟩
  · next memPool heq =>
    rw [heq] at hmem
    split
    · exact ⟨hmem, .refl _⟩
    · next extra hextra => exact ⟨hmem, Pool.shrinks_reconcileBlock s block extra p.stemPool⟩

/-- **What is dropped does not come back**, in both pools. -/
theorem reconcileBlock_eq_of_shrinks {p : TransactionPool}
    (h : Shrinks (p.reconcileBlock G s block).2 p) : (p.reconcileBlock G s block).2 = p := by
  have hmem := Pool.reconcileBlock_eq_of_shrinks (G := G) (p := p.memPool) s block none
  rw [reconcileBlock] at h ⊢
  split at h
  · next e memPool heq =>
    rw [heq] at hmem
    have hkept : memPool = p.memPool := hmem h.memPool
    rw [hkept]
  · next memPool heq =>
    rw [heq] at hmem
    split at h
    · have hkept : memPool = p.memPool := hmem h.memPool
      rw [hkept]
    · next extra hextra =>
      have hstem := Pool.reconcileBlock_eq_of_shrinks (G := G) (p := p.stemPool) s block extra
      have hkept : memPool = p.memPool := hmem h.memPool
      have hkept' : (Pool.reconcileBlock G s block extra p.stemPool).2 = p.stemPool :=
        hstem h.stemPool
      dsimp only
      rw [hkept, hkept']

end TransactionPool

end GrinPlusPlus
