import GrinPlusPlus.Lib.Greedy
import GrinPlusPlus.TxPool.PoolRuns
import Mathlib.Data.List.Find

/-!
# The pools after a block

`TransactionPool::ReconcileBlock` goes through each pool twice. First it drops what shares an
input or a kernel with the block; then it takes the transactions one after the other and keeps
those that are valid together with what it kept before and, for the stempool, with the aggregate
of the mempool. The second pass is a greedy choice, so the library `Greedy` says what remains
(`GrinPlusPlus.ValidTransactionFinder.findValidTransactions_eq`).

Two things about what remains are less than one would expect.

* The first pass compares inputs with their features. An input of an output that the block spent,
  with other features, is left to the second pass, which looks at an aggregate. It is found there
  unless it is cut through, so **a commitment that the block spent is spent by what remains only
  if it is created there as well.**
* The entries are looked up again by the hashes of their transactions, so a transaction that is in
  a pool twice comes back with **the status and time of its first entry**, whichever of the two
  was chosen.
-/

namespace GrinPlusPlus

open TransactionUtil Exec

variable {G : Global} {s : UtxoState} {block : FullBlock} {extra : Option Transaction}

/-! ### What is in an aggregate -/

section Aggregate

variable {transactions : List Transaction} {tx aggregated : Transaction}

/-- **Transactions can be aggregated** when their offsets can be added up. -/
theorem exists_aggregate_of_usable (hsums : G.SumsBlinds) (hne : transactions ≠ [])
    (husable : ∀ tx ∈ transactions, G.Usable tx.offset) :
    ∃ aggregated, aggregate G transactions = .ok aggregated ∧ G.Usable aggregated.offset := by
  obtain ⟨total, htotal, hsum⟩ := hsums.sum (transactions.map Transaction.offset)
    (fun h => hne (List.map_eq_nil_iff.mp h)) (by
      intro b hb
      obtain ⟨tx, htx, rfl⟩ := List.mem_map.mp hb
      exact husable tx htx)
  unfold aggregate
  split
  · exact ⟨_, rfl, husable _ (List.mem_singleton_self _)⟩
  · rw [htotal]
    exact ⟨_, rfl, hsum⟩

/-- An input is in the aggregate, or it is cut through. -/
theorem mem_inputs_of_aggregate (h : aggregate G transactions = .ok aggregated)
    (htx : tx ∈ transactions) {i : TransactionInput} (hi : i ∈ tx.body.inputs) :
    i ∈ aggregated.body.inputs ∨
      ∃ tx' ∈ transactions, ∃ o ∈ tx'.body.outputs, o.commitment = i.commitment := by
  unfold aggregate at h
  split at h
  · obtain rfl := Except.ok.inj h
    rw [List.mem_singleton.mp htx] at hi
    exact .inl hi
  · obtain ⟨offset, -, h⟩ := of_bind_eq_ok h
    obtain rfl := Except.ok.inj h
    have hin : i ∈ transactions.flatMap fun tx => tx.body.inputs :=
      List.mem_flatMap.mpr ⟨tx, htx, hi⟩
    by_cases hcut : i.commitment ∈
        (transactions.flatMap fun tx => tx.body.outputs).map TransactionOutput.commitment
    · obtain ⟨o, ho, heq⟩ := List.mem_map.mp hcut
      obtain ⟨tx', htx', ho⟩ := List.mem_flatMap.mp ho
      exact .inr ⟨tx', htx', o, ho, heq⟩
    · refine .inl ((perm_sortByHash _ _).mem_iff.mpr (List.mem_filter.mpr ⟨hin, ?_⟩))
      simpa using hcut

/-- What an aggregate creates is created by one of its transactions. -/
theorem mem_outputs_of_aggregate (h : aggregate G transactions = .ok aggregated)
    {o : TransactionOutput} (ho : o ∈ aggregated.body.outputs) :
    ∃ tx ∈ transactions, o ∈ tx.body.outputs := by
  unfold aggregate at h
  split at h
  · obtain rfl := Except.ok.inj h
    exact ⟨_, List.mem_singleton_self _, ho⟩
  · obtain ⟨offset, -, h⟩ := of_bind_eq_ok h
    obtain rfl := Except.ok.inj h
    have hmem := List.mem_of_mem_filter ((perm_sortByHash _ _).mem_iff.mp ho)
    exact List.mem_flatMap.mp hmem

end Aggregate

/-! ### What is chosen -/

namespace ValidTransactionFinder

/-- The transactions have an aggregate that `TransactionValidator` and `TxHashSet::IsValid`
accept. -/
def jointlyValid (G : Global) (s : UtxoState) (transactions : List Transaction) : Bool :=
  match aggregate G transactions with
  | .error _ => false
  | .ok aggregated => isValidTransaction G s aggregated

/-- A transaction is valid with what was kept and an extra one, aggregated in this order. -/
def fitsPool (G : Global) (s : UtxoState) (extra : Option Transaction) (kept : List Transaction)
    (tx : Transaction) : Bool :=
  jointlyValid G s (kept ++ extra.toList ++ [tx])

/-- **`FindValidTransactions` chooses greedily.** -/
theorem findValidTransactions_eq (hsums : G.SumsBlinds) {transactions kept : List Transaction}
    (hextra : ∀ tx ∈ extra, G.Usable tx.offset)
    (htransactions : ∀ tx ∈ transactions, G.Usable tx.offset)
    (hkept : ∀ tx ∈ kept, G.Usable tx.offset) :
    findValidTransactions G s extra transactions kept =
      .ok (Greedy.extend (fitsPool G s extra) kept transactions) := by
  induction transactions generalizing kept with
  | nil => rfl
  | cons tx transactions ih =>
    rw [List.forall_mem_cons] at htransactions
    have husable : ∀ tx' ∈ kept ++ extra.toList ++ [tx], G.Usable tx'.offset := by
      simp only [List.mem_append, Option.mem_toList, List.mem_singleton]
      rintro tx' ((h | h) | rfl)
      · exact hkept tx' h
      · exact hextra tx' h
      · exact htransactions.1
    obtain ⟨aggregated, haggregate, -⟩ := exists_aggregate_of_usable hsums (by simp) husable
    rw [findValidTransactions, haggregate, ok_bind, Greedy.extend, fitsPool, jointlyValid,
      haggregate]
    split_ifs
    · refine ih htransactions.2 fun tx' htx' => ?_
      rcases List.mem_append.mp htx' with h | h
      · exact hkept tx' h
      · exact List.mem_singleton.mp h ▸ htransactions.1
    · exact ih htransactions.2 hkept

end ValidTransactionFinder

/-! ### One pool -/

/-- The position table has no position of an output that the block spent. -/
def SpendsAll (block : FullBlock) (s : UtxoState) : Prop :=
  ∀ j ∈ block.body.inputs, s.blockDB.getOutputPosition j.commitment = none

/-- So it is once the block was applied. -/
theorem spendsAll_of_run_applyBlock {s₀ : UtxoState} {n : ℕ}
    (hshape : s₀.txHashSet.outputPMMR.current.Shape n)
    (happly : run (TxHashSet.applyBlock G block) s₀ = (.ok true, s)) : SpendsAll block s := by
  obtain ⟨locations, happlied⟩ := TxHashSet.of_run_applyBlock hshape happly
  intro j hj
  have hmem : (block.body.inputs.map TransactionInput.commitment).contains j.commitment = true :=
    List.contains_iff_mem.mpr (List.mem_map_of_mem hj)
  rw [happlied.blockDB, BlockDB.getOutputPosition, BlockDB.removeOutputPositions,
    BlockDB.writeTables_current]
  exact if_pos hmem

namespace Pool

/-- What is chosen from a pool. -/
def chosen (G : Global) (s : UtxoState) (block : FullBlock) (extra : Option Transaction)
    (p : Pool) : List Transaction :=
  Greedy.choose (ValidTransactionFinder.fitsPool G s extra)
    ((p.filter fun e => !shouldEvict G e.transaction block).map TxPoolEntry.transaction)

/-- **A pool goes over into another one by a reconciliation** with a block, an extra transaction
being kept in any case. -/
structure Reconciles (G : Global) (s : UtxoState) (block : FullBlock)
    (extra : Option Transaction) (p q : Pool) : Prop where
  /-- The transactions are a sublist. -/
  transactions : (q.map TxPoolEntry.transaction).Sublist (p.map TxPoolEntry.transaction)
  /-- Each comes with the status and the time of the first entry that has it. -/
  entry : ∀ e ∈ q, p.find? (fun a => decide (a.transaction = e.transaction)) = some e
  /-- So the entries are a sublist where no transaction is there twice. -/
  entries : (p.map TxPoolEntry.transaction).Nodup → q.Sublist p
  /-- No kernel is shared with the block. -/
  kernels : ∀ e ∈ q, ∀ k ∈ e.transaction.body.kernels, ∀ k' ∈ block.body.kernels,
    k'.getHash G ≠ k.getHash G
  /-- No input is shared with the block. -/
  inputs : ∀ e ∈ q, ∀ i ∈ e.transaction.body.inputs, i ∉ block.body.inputs
  /-- An output that the block spent is spent if it is created as well only. -/
  spent : ∀ e ∈ q, ∀ i ∈ e.transaction.body.inputs,
    (∃ j ∈ block.body.inputs, j.commitment = i.commitment) →
      ∃ tx ∈ q.map TxPoolEntry.transaction ++ extra.toList, ∃ o ∈ tx.body.outputs,
        o.commitment = i.commitment
  /-- What remains is valid, aggregated in the order in which the choice was made. -/
  valid : ∀ front last, q.map TxPoolEntry.transaction = front ++ [last] →
    ValidTransactionFinder.jointlyValid G s (front ++ extra.toList ++ [last]) = true
  /-- A transaction is dropped for one of two reasons only: it conflicts with the block, or it is
  not valid with what was kept of the entries in front of it. -/
  greedy : ∃ kept : Pool → List Transaction, kept [] = [] ∧
    kept p = q.map TxPoolEntry.transaction ∧
    ∀ a e, a ++ [e] <+: p → kept (a ++ [e]) =
      if shouldEvict G e.transaction block = false ∧
          ValidTransactionFinder.fitsPool G s extra (kept a) e.transaction = true then
        kept a ++ [e.transaction]
      else kept a

theorem chosen_sublist (p : Pool) :
    (chosen G s block extra p).Sublist
      ((p.filter fun e => !shouldEvict G e.transaction block).map TxPoolEntry.transaction) :=
  Greedy.choose_sublist

theorem chosen_concat (a : Pool) (e : TxPoolEntry) :
    chosen G s block extra (a ++ [e]) =
      if shouldEvict G e.transaction block = false ∧
          ValidTransactionFinder.fitsPool G s extra (chosen G s block extra a) e.transaction =
            true then
        chosen G s block extra a ++ [e.transaction]
      else chosen G s block extra a := by
  rw [chosen, List.filter_append, List.map_append]
  cases hevict : shouldEvict G e.transaction block with
  | true => simp [hevict, chosen]
  | false =>
    simp only [hevict, List.filter_cons, List.filter_nil, Bool.not_false, if_true, List.map_cons,
      List.map_nil, true_and]
    exact Greedy.choose_concat

/-- An entry that is found by the hash of a transaction is the first one that has it. -/
theorem find?_eq_of_mem (hG : G.InjectiveOnBytes) {p : Pool}
    (hfits : ∀ e ∈ p, e.transaction.Fits) {tx : Transaction} (htx : tx.Fits) {e : TxPoolEntry}
    (h : (p.filter fun e => !shouldEvict G e.transaction block).find?
      (fun a => decide (a.transaction.getHash G = tx.getHash G)) = some e) :
    e.transaction = tx ∧ p.find? (fun a => decide (a.transaction = e.transaction)) = some e := by
  have hmem := List.mem_of_find?_eq_some h
  obtain ⟨hp, hkept⟩ := List.mem_filter.mp hmem
  have hhash : e.transaction.getHash G = tx.getHash G := by simpa using List.find?_some h
  have heq := Transaction.eq_of_getHash_eq hG (hfits e hp) htx hhash
  refine ⟨heq, ?_⟩
  rw [List.find?_filter] at h
  rw [← h]
  refine List.find?_congr fun a ha => ?_
  have hiff : a.transaction = e.transaction ↔
      a.transaction.getHash G = tx.getHash G := by
    rw [heq]
    exact ⟨fun h => h ▸ rfl, Transaction.eq_of_getHash_eq hG (hfits a ha) htx⟩
  cases hevict : shouldEvict G a.transaction block with
  | false => simp [hiff]
  | true =>
    -- an entry with this transaction would not have been dropped
    have hne : a.transaction ≠ e.transaction := by
      intro hsame
      rw [hsame] at hevict
      simp [hevict] at hkept
    simp [hne]

/-- Where no transaction is there twice, each entry is found by its hash. -/
theorem filterMap_find_of_nodup (hG : G.InjectiveOnBytes) {filtered l : Pool}
    (hfits : ∀ e ∈ filtered, e.transaction.Fits)
    (hnodup : (filtered.map TxPoolEntry.transaction).Nodup) (hl : l.Sublist filtered) :
    ((l.map TxPoolEntry.transaction).filterMap fun tx =>
      filtered.find? fun e => e.transaction.getHash G = tx.getHash G) = l := by
  rw [List.filterMap_map]
  have hself : ∀ e ∈ l, (filtered.find? fun a =>
      decide (a.transaction.getHash G = e.transaction.getHash G)) = some e := by
    intro e he
    have hmem := hl.subset he
    rcases hfind : filtered.find? fun a => decide (a.transaction.getHash G =
        e.transaction.getHash G) with _ | a
    · have hnone := List.find?_eq_none.mp hfind e hmem
      simp at hnone
    · have ha := List.mem_of_find?_eq_some hfind
      have hhash : a.transaction.getHash G = e.transaction.getHash G := by
        simpa using List.find?_some hfind
      have hsame := Transaction.eq_of_getHash_eq hG (hfits a ha) (hfits e hmem) hhash
      rw [hfind, List.inj_on_of_nodup_map hnodup ha hmem hsame]
  calc l.filterMap _ = l.filterMap some := List.filterMap_congr hself
    _ = l := List.filterMap_some

/-- **What the block spent** is spent by a valid collection if it is created in it as well only. -/
theorem exists_output_of_jointlyValid {transactions : List Transaction}
    (hspent : SpendsAll block s)
    (hvalid : ValidTransactionFinder.jointlyValid G s transactions = true) {tx : Transaction}
    (htx : tx ∈ transactions) {i : TransactionInput} (hi : i ∈ tx.body.inputs)
    (hblock : ∃ j ∈ block.body.inputs, j.commitment = i.commitment) :
    ∃ tx' ∈ transactions, ∃ o ∈ tx'.body.outputs, o.commitment = i.commitment := by
  unfold ValidTransactionFinder.jointlyValid at hvalid
  split at hvalid
  · cases hvalid
  next aggregated haggregate =>
  rcases mem_inputs_of_aggregate haggregate htx hi with hmem | hcut
  · -- it is not cut through, so it has a position
    obtain ⟨j, hj, heq⟩ := hblock
    unfold ValidTransactionFinder.isValidTransaction at hvalid
    split at hvalid
    · cases hvalid
    · obtain ⟨position, output, hunspent, -⟩ := (isValid_iff.mp hvalid).1 i hmem
      rw [UtxoState.unspent, ← heq, hspent j hj] at hunspent
      cases hunspent
  · exact hcut

/-- **What is looked up again** for the transactions that are chosen. -/
theorem reconciles_reconcileBlock (hG : G.InjectiveOnBytes) (hsums : G.SumsBlinds) {p : Pool}
    (hp : ∀ e ∈ p, e.transaction.Fits ∧ G.Usable e.transaction.offset)
    (hextra : ∀ tx ∈ extra, G.Usable tx.offset) (hspent : SpendsAll block s) :
    ∃ q, reconcileBlock G s block extra p = (.ok (), q) ∧ Reconciles G s block extra p q := by
  set filtered := p.filter fun e => !shouldEvict G e.transaction block with hfiltered
  have hsub : filtered.Sublist p := List.filter_sublist
  have hfits : ∀ e ∈ p, e.transaction.Fits := fun e he => (hp e he).1
  have hfound := @ValidTransactionFinder.findValidTransactions_eq G s extra hsums
    (filtered.map TxPoolEntry.transaction) [] hextra (by
      intro tx htx
      obtain ⟨e, he, rfl⟩ := List.mem_map.mp htx
      exact (hp e (hsub.subset he)).2) (by simp)
  have hchosen : (chosen G s block extra p).Sublist (filtered.map TxPoolEntry.transaction) :=
    chosen_sublist p
  set q := (chosen G s block extra p).filterMap fun tx =>
    filtered.find? fun e => e.transaction.getHash G = tx.getHash G with hq
  have hmap : q.map TxPoolEntry.transaction = chosen G s block extra p :=
    map_filterMap_find hG (fun e he => hfits e (hsub.subset he)) hchosen.subset
  have hmem : ∀ e ∈ q, e ∈ filtered := by
    intro e he
    obtain ⟨tx, -, hfind⟩ := List.mem_filterMap.mp he
    exact List.mem_of_find?_eq_some hfind
  have hkept : ∀ e ∈ q, shouldEvict G e.transaction block = false := by
    intro e he
    simpa using (List.mem_filter.mp (hmem e he)).2
  refine ⟨q, ?_, ?_⟩
  · rw [reconcileBlock, ← hfiltered, hfound]
    rfl
  have hvalid : ∀ front last, q.map TxPoolEntry.transaction = front ++ [last] →
      ValidTransactionFinder.jointlyValid G s (front ++ extra.toList ++ [last]) = true := by
    intro front last hlast
    rw [hmap] at hlast
    exact Greedy.fits_of_choose_eq hlast
  refine ⟨?_, ?_, ?_, ?_, ?_, ?_, hvalid, ?_⟩
  · rw [hmap]
    exact hchosen.trans (hsub.map _)
  · intro e he
    obtain ⟨tx, htx, hfind⟩ := List.mem_filterMap.mp he
    obtain ⟨e', he', rfl⟩ := List.mem_map.mp (hchosen.subset htx)
    exact (find?_eq_of_mem hG hfits (hfits e' (hsub.subset he')) hfind).2
  · intro hnodup
    obtain ⟨l, hl, heq⟩ := List.sublist_map_iff.mp hchosen
    rw [hq, heq, filterMap_find_of_nodup hG (fun e he => hfits e (hsub.subset he))
      (hnodup.sublist (hsub.map _)) hl]
    exact hl.trans hsub
  · intro e he k hk k' hk' heq
    have hno := hkept e he
    rw [shouldEvict, Bool.or_eq_false_iff, List.any_eq_false, List.any_eq_false] at hno
    exact hno.2 k hk (List.any_eq_true.mpr ⟨k', hk', decide_eq_true heq⟩)
  · intro e he i hi hmem
    have hno := hkept e he
    rw [shouldEvict, Bool.or_eq_false_iff, List.any_eq_false] at hno
    exact hno.1 i hi (decide_eq_true hmem)
  · intro e he i hi hblock
    have htx : e.transaction ∈ q.map TxPoolEntry.transaction := List.mem_map_of_mem he
    rcases List.eq_nil_or_concat' (q.map TxPoolEntry.transaction) with hnil | ⟨front, last, heq⟩
    · rw [hnil] at htx
      cases htx
    · rw [heq] at htx ⊢
      have hin : e.transaction ∈ front ++ extra.toList ++ [last] := by
        simp only [List.mem_append] at htx ⊢
        tauto
      obtain ⟨tx', htx', hcreated⟩ := exists_output_of_jointlyValid hspent
        (hvalid front last heq) hin hi hblock
      refine ⟨tx', ?_, hcreated⟩
      simp only [List.mem_append] at htx' ⊢
      tauto
  · exact ⟨chosen G s block extra, rfl, hmap.symm, fun a e _ => chosen_concat a e⟩

/-- The aggregate of a pool that is left is accepted, and creates what its transactions do. -/
structure AggregateOf (G : Global) (s : UtxoState) (p : Pool) (extra : Option Transaction) :
    Prop where
  /-- It is the aggregate. -/
  aggregate_eq : aggregate G p = .ok extra
  /-- It is accepted. -/
  valid : ∀ tx ∈ extra, ValidTransactionFinder.isValidTransaction G s tx = true
  /-- What it creates is created by a transaction of the pool. -/
  outputs : ∀ tx ∈ extra, ∀ o ∈ tx.body.outputs, ∃ e ∈ p, o ∈ e.transaction.body.outputs
  /-- Its offset can be added up. -/
  usable : ∀ tx ∈ extra, G.Usable tx.offset

theorem Reconciles.aggregateOf (hsums : G.SumsBlinds) {p q : Pool}
    (h : Reconciles G s block none p q) (hp : ∀ e ∈ p, G.Usable e.transaction.offset) :
    ∃ extra, AggregateOf G s q extra := by
  have husable : ∀ tx ∈ q.map TxPoolEntry.transaction, G.Usable tx.offset := by
    intro tx htx
    obtain ⟨e, he, rfl⟩ := List.mem_map.mp (h.transactions.subset htx)
    exact hp e he
  rcases List.eq_nil_or_concat' (q.map TxPoolEntry.transaction) with hnil | ⟨front, last, heq⟩
  · refine ⟨none, ?_, by simp, by simp, by simp⟩
    rw [List.map_eq_nil_iff.mp hnil]
    rfl
  · obtain ⟨tx, htx, hoffset⟩ := exists_aggregate_of_usable hsums (by simp [heq]) husable
    have hne : q.isEmpty = false := by
      rcases q with _ | ⟨e, q⟩
      · exact absurd heq.symm (List.concat_ne_nil last front)
      · rfl
    refine ⟨some tx, ?_, ?_, ?_, ?_⟩
    · rw [aggregate, hne, if_neg Bool.false_ne_true, htx]
      rfl
    · rintro _ ⟨⟩
      have hvalid := h.valid front last heq
      rw [Option.toList_none, List.append_nil, ← heq, ValidTransactionFinder.jointlyValid,
        htx] at hvalid
      exact hvalid
    · rintro _ ⟨⟩ o ho
      obtain ⟨tx', htx', ho'⟩ := mem_outputs_of_aggregate htx ho
      obtain ⟨e, he, rfl⟩ := List.mem_map.mp htx'
      exact ⟨e, he, ho'⟩
    · rintro _ ⟨⟩
      exact hoffset

end Pool

/-! ### Both pools -/

/-- **The pools after a block**: each goes over by a reconciliation into the other, the stempool
together with the aggregate of what is left of the mempool. Nothing is thrown. -/
theorem TransactionPool.reconcileBlock_reconciles (hG : G.InjectiveOnBytes)
    (hsums : G.SumsBlinds) {p : TransactionPool}
    (hp : ∀ e ∈ p.memPool ++ p.stemPool, e.transaction.Fits ∧ G.Usable e.transaction.offset)
    (hspent : SpendsAll block s) :
    ∃ q extra, p.reconcileBlock G s block = (.ok (), q) ∧
      Pool.Reconciles G s block none p.memPool q.memPool ∧
      Pool.AggregateOf G s q.memPool extra ∧
      Pool.Reconciles G s block extra p.stemPool q.stemPool := by
  obtain ⟨memPool, hmem, hreconciles⟩ := @Pool.reconciles_reconcileBlock G s block none hG hsums
    p.memPool (fun e he => hp e (List.mem_append_left _ he)) (by simp) hspent
  obtain ⟨extra, hextra⟩ := hreconciles.aggregateOf hsums
    fun e he => (hp e (List.mem_append_left _ he)).2
  obtain ⟨stemPool, hstem, hreconciles'⟩ := Pool.reconciles_reconcileBlock hG hsums
    (fun e he => hp e (List.mem_append_right _ he)) hextra.usable hspent
  refine ⟨⟨memPool, stemPool⟩, extra, ?_, hreconciles, hextra, hreconciles'⟩
  rw [reconcileBlock, hmem]
  dsimp only
  rw [hextra.aggregate_eq]
  dsimp only
  rw [hstem]

/-! ### What a block leaves of some pools -/

namespace SmallNet

/-- A block that spends the second of two coins. -/
def spendingBlock : FullBlock where
  header := genesisHeader
  body := ⟨[⟨.default, commitment 200⟩], [], []⟩

/-- The state behind it. -/
def spentState : UtxoState :=
  (run (TxHashSet.applyBlock (smallNet .mainnet) spendingBlock) coinsState).2

theorem run_applyBlock_spendingBlock :
    run (TxHashSet.applyBlock (smallNet .mainnet) spendingBlock) coinsState =
      (.ok true, spentState) := by
  have hok : (run (TxHashSet.applyBlock (smallNet .mainnet) spendingBlock) coinsState).1 =
      .ok true := by
    decide +kernel
  exact Prod.ext hok rfl

theorem shape_coinsState : coinsState.txHashSet.outputPMMR.current.Shape 2 where
  size := by decide
  roots_lt := fun r hr => by cases hr
  data := rfl
  leafSet_lt := fun i hi => of_decide_eq_true hi

/-- A transaction of each coin, one in each pool. -/
def coinPools : TransactionPool where
  memPool := [⟨firstTransaction, .fluffed, 0⟩]
  stemPool := [⟨secondTransaction, .toStem, 1⟩]

/-- The second one is dropped, the first one stays. -/
theorem reconcileBlock_reconciles_coinPools :
    (coinPools.reconcileBlock (smallNet .mainnet) spentState spendingBlock).1 = .ok () ∧
      Pool.Reconciles (smallNet .mainnet) spentState spendingBlock none coinPools.memPool
        (coinPools.reconcileBlock (smallNet .mainnet) spentState spendingBlock).2.memPool ∧
      (coinPools.reconcileBlock (smallNet .mainnet) spentState spendingBlock).2 =
        ⟨coinPools.memPool, []⟩ := by
  have hp : ∀ e ∈ coinPools.memPool ++ coinPools.stemPool,
      e.transaction.Fits ∧ (smallNet .mainnet).Usable e.transaction.offset := by
    simp only [coinPools, List.cons_append, List.nil_append, List.forall_mem_cons]
    refine ⟨⟨⟨by decide, by decide, by decide⟩, .inr rfl⟩,
      ⟨⟨by decide, by decide, by decide⟩, .inr rfl⟩, by simp⟩
  obtain ⟨q, extra, hrun, hmem, -⟩ := TransactionPool.reconcileBlock_reconciles
    (injectiveOnBytes .mainnet) (sumsBlinds .mainnet) hp
    (spendsAll_of_run_applyBlock shape_coinsState run_applyBlock_spendingBlock)
  rw [hrun]
  refine ⟨rfl, hmem, ?_⟩
  have hq : q = (coinPools.reconcileBlock (smallNet .mainnet) spentState spendingBlock).2 := by
    rw [hrun]
  rw [hq]
  decide +kernel

/-- A transaction that is there twice, in front of and behind the one whose output it spends. -/
def repeatedPools : TransactionPool where
  memPool := [⟨smallTransaction 95 90, .fluffed, 0⟩, ⟨smallTransaction 100 95, .fluffed, 1⟩,
    ⟨smallTransaction 95 90, .fluffed, 2⟩]
  stemPool := []

/-- The coin that the block spent is created again and spent, as the output of a coinbase. -/
def recreatedPools : TransactionPool where
  memPool := [⟨smallTransaction 100 200, .fluffed, 0⟩,
    ⟨⟨noBlind, { (smallTransaction 200 195).body with
      inputs := [⟨.coinbaseOutput, commitment 200⟩] }⟩, .fluffed, 1⟩]
  stemPool := []

/-- What remains are entries of the pools, in their order, and none of them spends an output that
the block spent. -/
structure EntriesKept (p : TransactionPool) (block : FullBlock) (q : TransactionPool) : Prop where
  /-- The mempool. -/
  memPool : q.memPool.Sublist p.memPool
  /-- The stempool. -/
  stemPool : q.stemPool.Sublist p.stemPool
  /-- No output is spent again. -/
  spent : ∀ e ∈ q.memPool ++ q.stemPool, ∀ i ∈ e.transaction.body.inputs,
    ∀ j ∈ block.body.inputs, j.commitment ≠ i.commitment

/-- **Neither is so**: the first pool comes back with the first entry of the repeated transaction
behind the other one, and the second one comes back as it was. -/
theorem not_entriesKept :
    SpendsAll spendingBlock spentState ∧
      ¬ EntriesKept repeatedPools spendingBlock
        (repeatedPools.reconcileBlock (smallNet .mainnet) spentState spendingBlock).2 ∧
      ¬ EntriesKept recreatedPools spendingBlock
        (recreatedPools.reconcileBlock (smallNet .mainnet) spentState spendingBlock).2 := by
  refine ⟨spendsAll_of_run_applyBlock shape_coinsState run_applyBlock_spendingBlock, ?_, ?_⟩
  · intro h
    have hmem := h.memPool
    revert hmem
    decide +kernel
  · intro h
    have hspent := h.spent
    revert hspent
    decide +kernel

end SmallNet

end GrinPlusPlus
