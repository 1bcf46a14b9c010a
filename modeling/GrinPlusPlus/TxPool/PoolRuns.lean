import GrinPlusPlus.BlockChain.CompactBlock
import GrinPlusPlus.Pmmr.DistinctCommitments

/-!
# The mempool over a run of calls

`AddTransaction`, `GetTransactionToStem`, `GetTransactionToFluff` and `ReconcileBlock`, in any
order: is what is in the mempool jointly mineable (`GrinPlusPlus.JointlyMineable`)?

`AddTransaction` checks a transaction *alone*. Two transactions that spend the same output are
both let into the mempool; the other two ways into a pool – from the stempool, and through a
reconciliation – check a transaction together with the mempool. And even this check misses
something, because `TxBodyValidator` compares neighbours only: inputs of the same output that
claim different features, outputs with the same commitment and different features, and kernels,
which are not compared at all.

Leaving these out (`GrinPlusPlus.PoolState.Admits`), the mempool is jointly mineable after every
call. The invariant (`GrinPlusPlus.PoolState.Kept`) is about both pools: every transaction is
valid *alone* in the current hash set. A commitment can be spent or created there, never both,
so that nothing is cut through when transactions of the pools are aggregated, and an aggregate
is valid exactly when each of its transactions is.
-/

namespace GrinPlusPlus

variable {G : Global} {s s' : UtxoState}

/-! ### Blinding factors -/

/-- A blinding factor that can be committed to, or none at all. -/
def Global.Usable (G : Global) (b : BlindingFactor) : Prop :=
  b.bytes.all (· = 0) = true ∨ (G.commitBlinded 0 b).isSome = true

/-- `Crypto::AddBlindingFactors` fails on factors outside the scalar group only, and gives a
factor within. -/
structure Global.SumsBlinds (G : Global) : Prop where
  /-- The sum of factors of the group. -/
  sum : ∀ blinds, blinds ≠ [] → (∀ b ∈ blinds, G.Usable b) →
    ∃ total, G.addBlindingFactors blinds [] = some total ∧ G.Usable total

/-- The offset of a transaction that is accepted was committed to. -/
theorem usable_of_validate {tx : Transaction} {height : ℕ}
    (h : TransactionValidator.validate G tx height = .ok ()) : G.Usable tx.offset := by
  obtain ⟨_, -, h⟩ := Exec.of_bind_eq_ok h
  obtain ⟨_, -, h⟩ := Exec.of_bind_eq_ok h
  obtain ⟨_, -, h⟩ := Exec.of_bind_eq_ok h
  unfold TransactionValidator.validateKernelSums catching at h
  split at h
  · next hsums =>
    obtain ⟨_, hsums, -⟩ := Exec.of_bind_eq_ok hsums
    obtain ⟨_, -, hsums⟩ := Exec.of_bind_eq_ok hsums
    obtain ⟨_, -, hsums⟩ := Exec.of_bind_eq_ok hsums
    obtain ⟨_, -, hsums⟩ := Exec.of_bind_eq_ok hsums
    obtain ⟨_, hoffset, -⟩ := Exec.of_bind_eq_ok hsums
    rw [KernelSumValidator.addKernelOffset] at hoffset
    split at hoffset
    · next hzero => exact .inl hzero
    · obtain ⟨c, hcommit, -⟩ := Exec.of_bind_eq_ok hoffset
      rcases hsome : G.commitBlinded 0 tx.offset with _ | commitment
      · rw [commitBlinded, hsome] at hcommit
        cases hcommit
      · exact .inr (by rw [hsome, Option.isSome_some])
  · split at h
    · cases h
    · cases h

/-! ### What is valid alone -/

/-- The unspent output with a commitment, and its place. -/
def UtxoState.unspent (s : UtxoState) (c : Commitment) :
    Option (OutputLocation × OutputIdentifier) :=
  match s.blockDB.getOutputPosition c with
  | none => none
  | some position =>
    match s.txHashSet.outputPMMR.current.getAt position.leafIndex with
    | none => none
    | some output => if output.commitment = c then some (position, output) else none

/-- A commitment is that of an unspent output, which is mature if it is a reward. -/
def UtxoState.CanSpend (G : Global) (s : UtxoState) (c : Commitment) : Prop :=
  ∃ position output, s.unspent c = some (position, output) ∧
    (output.features.isCoinbase = true → position.blockHeight ≤
      Consensus.getMaxCoinbaseHeight G.env (s.txHashSet.blockHeader.getHeight + 1))

/-- A commitment is not that of an unspent output. -/
def UtxoState.CanCreate (s : UtxoState) (c : Commitment) : Prop :=
  s.unspent c = none

/-- What can be spent cannot be created. -/
theorem UtxoState.CanSpend.not_canCreate {c : Commitment} (h : s.CanSpend G c) :
    ¬s.CanCreate c := by
  obtain ⟨position, output, hunspent, -⟩ := h
  intro hcreate
  rw [UtxoState.CanCreate, hunspent] at hcreate
  cases hcreate

theorem isValid_iff {tx : Transaction} : s.txHashSet.isValid G s.blockDB tx = true ↔
    (∀ i ∈ tx.body.inputs, s.CanSpend G i.commitment) ∧
      ∀ o ∈ tx.body.outputs, s.CanCreate o.commitment := by
  rw [TxHashSet.isValid, Bool.and_eq_true, List.all_eq_true, List.all_eq_true]
  refine and_congr (forall₂_congr fun i _ => ?_) (forall₂_congr fun o _ => ?_)
  · rw [UtxoState.CanSpend, UtxoState.unspent]
    rcases s.blockDB.getOutputPosition i.commitment with _ | position
    · simp
    · dsimp only
      rcases s.txHashSet.outputPMMR.current.getAt position.leafIndex with _ | output
      · simp
      · by_cases hc : output.commitment = i.commitment
        · simp [hc, imp_iff_not_or]
        · simp [hc]
  · rw [UtxoState.CanCreate, UtxoState.unspent]
    rcases s.blockDB.getOutputPosition o.commitment with _ | position
    · simp
    · dsimp only
      rcases s.txHashSet.outputPMMR.current.getAt position.leafIndex with _ | output
      · simp
      · simp

/-- A transaction that is valid alone, with an offset that can be added up. -/
structure Admissible (G : Global) (s : UtxoState) (tx : Transaction) : Prop where
  /-- It is valid in the hash set. -/
  isValid : s.txHashSet.isValid G s.blockDB tx = true
  /-- Its offset is usable. -/
  offset : G.Usable tx.offset

/-! ### Aggregates -/

/-- An aggregate in which nothing was cut through: it has the inputs, the outputs and the
kernels of its transactions, in some order. -/
structure Aggregates (transactions : List Transaction) (tx : Transaction) : Prop where
  /-- The inputs. -/
  inputs : tx.body.inputs.Perm (transactions.flatMap fun tx => tx.body.inputs)
  /-- The outputs. -/
  outputs : tx.body.outputs.Perm (transactions.flatMap fun tx => tx.body.outputs)
  /-- The kernels. -/
  kernels : tx.body.kernels.Perm (transactions.flatMap fun tx => tx.body.kernels)

theorem aggregates_singleton (tx : Transaction) : Aggregates [tx] tx := by
  refine ⟨?_, ?_, ?_⟩ <;> rw [List.flatMap_singleton]

/-- An aggregate is valid exactly when its transactions are. -/
theorem Aggregates.isValid_iff {transactions : List Transaction} {tx : Transaction}
    (h : Aggregates transactions tx) : s.txHashSet.isValid G s.blockDB tx = true ↔
      ∀ tx' ∈ transactions, s.txHashSet.isValid G s.blockDB tx' = true := by
  simp only [GrinPlusPlus.isValid_iff, h.inputs.mem_iff, h.outputs.mem_iff, List.mem_flatMap]
  constructor
  · rintro ⟨hinputs, houtputs⟩ tx' htx'
    exact ⟨fun i hi => hinputs i ⟨tx', htx', hi⟩, fun o ho => houtputs o ⟨tx', htx', ho⟩⟩
  · intro hall
    refine ⟨?_, ?_⟩
    · rintro i ⟨tx', htx', hi⟩
      exact (hall tx' htx').1 i hi
    · rintro o ⟨tx', htx', ho⟩
      exact (hall tx' htx').2 o ho

/-- **Nothing is cut through** when all transactions are valid in one hash set. -/
theorem performCutThrough_eq {transactions : List Transaction}
    (h : ∀ tx ∈ transactions, Admissible G s tx) :
    TransactionUtil.performCutThrough (transactions.flatMap fun tx => tx.body.inputs)
        (transactions.flatMap fun tx => tx.body.outputs) =
      (transactions.flatMap fun tx => tx.body.inputs,
        transactions.flatMap fun tx => tx.body.outputs) := by
  refine TransactionUtil.performCutThrough_eq_self fun i hi o ho heq => ?_
  obtain ⟨tx, htx, hi⟩ := List.mem_flatMap.mp hi
  obtain ⟨tx', htx', ho⟩ := List.mem_flatMap.mp ho
  have hspend := (isValid_iff.mp (h tx htx).isValid).1 i hi
  have hcreate := (isValid_iff.mp (h tx' htx').isValid).2 o ho
  exact hspend.not_canCreate (heq ▸ hcreate)

/-- One transaction is its own aggregate; several are put together under the sum of their
offsets. -/
theorem aggregate_cases {transactions : List Transaction}
    (hall : ∀ tx ∈ transactions, Admissible G s tx) :
    (∃ tx, transactions = [tx] ∧ TransactionUtil.aggregate G transactions = .ok tx) ∨
      TransactionUtil.aggregate G transactions = (do
        let offset ← orThrow (G.addBlindingFactors (transactions.map Transaction.offset) [])
          (.crypto "secp256k1_pedersen_blind_sum failed.")
        .ok ⟨offset,
          sortByHash (TransactionInput.getHash G) (transactions.flatMap fun tx => tx.body.inputs),
          sortByHash (TransactionOutput.getHash G)
            (transactions.flatMap fun tx => tx.body.outputs),
          sortByHash (TransactionKernel.getHash G)
            (transactions.flatMap fun tx => tx.body.kernels)⟩) := by
  have hcut := performCutThrough_eq hall
  rcases transactions with _ | ⟨tx, _ | ⟨tx', transactions⟩⟩
  · exact .inr rfl
  · exact .inl ⟨tx, rfl, rfl⟩
  · refine .inr ?_
    rw [TransactionUtil.aggregate, hcut]
    rintro tx'' ⟨⟩

/-- **Transactions that are valid alone can be aggregated**, and the aggregate is as good. -/
theorem exists_aggregate (hsums : G.SumsBlinds) {transactions : List Transaction}
    (hne : transactions ≠ []) (hall : ∀ tx ∈ transactions, Admissible G s tx) :
    ∃ tx, TransactionUtil.aggregate G transactions = .ok tx ∧ Aggregates transactions tx ∧
      Admissible G s tx := by
  rcases aggregate_cases hall with ⟨tx, rfl, h⟩ | h
  · exact ⟨tx, h, aggregates_singleton tx, hall tx (List.mem_singleton_self tx)⟩
  · obtain ⟨total, htotal, husable⟩ := hsums.sum (transactions.map Transaction.offset)
      (fun h => hne (List.map_eq_nil_iff.mp h)) (by
        intro b hb
        obtain ⟨tx, htx, rfl⟩ := List.mem_map.mp hb
        exact (hall tx htx).offset)
    rw [htotal] at h
    have haggregates : Aggregates transactions ⟨total,
        sortByHash (TransactionInput.getHash G) (transactions.flatMap fun tx => tx.body.inputs),
        sortByHash (TransactionOutput.getHash G) (transactions.flatMap fun tx => tx.body.outputs),
        sortByHash (TransactionKernel.getHash G)
          (transactions.flatMap fun tx => tx.body.kernels)⟩ :=
      ⟨perm_sortByHash _ _, perm_sortByHash _ _, perm_sortByHash _ _⟩
    exact ⟨_, h, haggregates,
      haggregates.isValid_iff.mpr fun tx' htx' => (hall tx' htx').isValid, husable⟩

/-! ### What is found to be valid -/

namespace ValidTransactionFinder

variable {extra : Option Transaction}

/-- With transactions that are valid alone in one hash set, no aggregate fails, and what is
found is valid alone in the other hash set, too. Each one was validated together with the extra
transaction. -/
theorem findValidTransactions_spec (hsums : G.SumsBlinds) (s' : UtxoState)
    (hextra : ∀ tx ∈ extra, Admissible G s tx) (transactions valid : List Transaction)
    (htransactions : ∀ tx ∈ transactions, Admissible G s tx)
    (hvalid : ∀ tx ∈ valid, Admissible G s tx) :
    ∃ l, findValidTransactions G s' extra transactions valid = .ok (valid ++ l) ∧
      l.Sublist transactions ∧
      ∀ tx ∈ l, ∃ front aggregated, front ⊆ valid ++ transactions ∧
        Aggregates (front ++ extra.toList ++ [tx]) aggregated ∧
        isValidTransaction G s' aggregated = true := by
  induction transactions generalizing valid with
  | nil => exact ⟨[], by rw [findValidTransactions, List.append_nil], .slnil, by simp⟩
  | cons tx transactions ih =>
    have hhead := htransactions tx (List.mem_cons_self ..)
    have htail := fun tx' h => htransactions tx' (List.mem_cons_of_mem _ h)
    have hcandidates : ∀ tx' ∈ valid ++ extra.toList ++ [tx], Admissible G s tx' := by
      intro tx' h
      rw [List.mem_append, List.mem_append, Option.mem_toList, List.mem_singleton] at h
      rcases h with (h | h) | rfl
      · exact hvalid tx' h
      · exact hextra tx' h
      · exact hhead
    obtain ⟨aggregated, heq, haggregates, -⟩ := exists_aggregate hsums (by simp) hcandidates
    rw [findValidTransactions, heq, Exec.ok_bind]
    split
    · next hok =>
      obtain ⟨l, hl, hsub, hchecked⟩ := ih (valid ++ [tx]) htail (by
        intro tx' h
        rcases List.mem_append.mp h with h | h
        · exact hvalid tx' h
        · rw [List.mem_singleton.mp h]
          exact hhead)
      refine ⟨tx :: l, ?_, hsub.cons_cons tx, ?_⟩
      · rw [hl, List.append_assoc, List.singleton_append]
      · rintro tx' h
        rcases List.mem_cons.mp h with rfl | h
        · exact ⟨valid, aggregated, List.subset_append_left _ _, haggregates, hok⟩
        · obtain ⟨front, aggregated, hfront, hrest⟩ := hchecked tx' h
          rw [List.append_assoc, List.singleton_append] at hfront
          exact ⟨front, aggregated, hfront, hrest⟩
    · obtain ⟨l, hl, hsub, hchecked⟩ := ih valid htail hvalid
      refine ⟨l, hl, hsub.cons tx, fun tx' h => ?_⟩
      obtain ⟨front, aggregated, hfront, hrest⟩ := hchecked tx' h
      refine ⟨front, aggregated, fun v hv => ?_, hrest⟩
      rcases List.mem_append.mp (hfront hv) with hv | hv
      · exact List.mem_append_left _ hv
      · exact List.mem_append_right _ (List.mem_cons_of_mem _ hv)

/-- What was validated as part of an aggregate is valid alone. -/
theorem isValid_of_isValidTransaction {front : List Transaction} {tx aggregated : Transaction}
    (haggregates : Aggregates (front ++ extra.toList ++ [tx]) aggregated)
    (h : isValidTransaction G s' aggregated = true) :
    s'.txHashSet.isValid G s'.blockDB tx = true := by
  rw [isValidTransaction] at h
  split at h
  · cases h
  · exact haggregates.isValid_iff.mp h tx (by simp)

end ValidTransactionFinder

/-! ### What a transaction shares with another one -/

/-- Two transactions share no output that they spend or create, and no kernel. -/
structure Apart (G : Global) (a b : Transaction) : Prop where
  /-- They do not spend the same output. -/
  inputs : ∀ i ∈ a.body.inputs, ∀ j ∈ b.body.inputs, i.commitment ≠ j.commitment
  /-- They do not create the same output. -/
  outputs : ∀ o ∈ a.body.outputs, ∀ p ∈ b.body.outputs, o.commitment ≠ p.commitment
  /-- They share no kernel. -/
  kernels : ∀ k ∈ a.body.kernels, ∀ l ∈ b.body.kernels, k.getHash G ≠ l.getHash G

/-- Two transactions whose conflicts a validation can see: features do not tell the same outputs
apart, and no kernel is shared. -/
structure Comparable (G : Global) (a b : Transaction) : Prop where
  /-- Inputs of the same output are equal. -/
  inputs : ∀ i ∈ a.body.inputs, ∀ j ∈ b.body.inputs, i.commitment = j.commitment → i = j
  /-- Outputs with the same commitment have the same features. -/
  outputs : ∀ o ∈ a.body.outputs, ∀ p ∈ b.body.outputs, o.commitment = p.commitment →
    o.features = p.features
  /-- They share no kernel. -/
  kernels : ∀ k ∈ a.body.kernels, ∀ l ∈ b.body.kernels, k.getHash G ≠ l.getHash G

/-- **Comparing neighbours is enough for one hash**: when the values that have it count as
equal, there is only one of them. -/
theorem countP_getHash_le_one {α : Type} {getHash : α → Hash} {eq : α → α → Bool}
    {values : List α} (hsorted : isSorted getHash values = true)
    (hduplicate : hasDuplicate eq values = false) {h : Hash}
    (heq : ∀ a ∈ values, ∀ b ∈ values, getHash a = h → getHash b = h → eq b a = true) :
    values.countP (fun a => decide (getHash a = h)) ≤ 1 := by
  rw [isSorted_iff] at hsorted
  rw [hasDuplicate_eq_false_iff] at hduplicate
  induction values with
  | nil => simp
  | cons a rest ih =>
    have hrest := ih hsorted.tail hduplicate.tail fun b hb c hc =>
      heq b (List.mem_cons_of_mem _ hb) c (List.mem_cons_of_mem _ hc)
    rw [List.countP_cons]
    by_cases ha : getHash a = h
    · -- The next value has a hash between this one and any later one.
      have hnone : rest.countP (fun a => decide (getHash a = h)) = 0 := by
        rw [List.countP_eq_zero]
        intro b hb hbh
        rw [decide_eq_true_eq] at hbh
        rcases rest with _ | ⟨n, rest⟩
        · cases hb
        · have han := (List.isChain_cons_cons.mp hsorted).1
          have hnb : (getHash n).value ≤ (getHash b).value := by
            have hchain : (n :: rest).IsChain fun a b => (getHash a).value ≤ (getHash b).value :=
              hsorted.tail.imp fun a b hab => Nat.le_of_not_lt hab
            have : IsTrans α fun a b => (getHash a).value ≤ (getHash b).value :=
              ⟨fun _ _ _ => le_trans⟩
            rcases List.mem_cons.mp hb with rfl | hb
            · exact le_rfl
            · exact (List.pairwise_cons.mp hchain.pairwise).1 b hb
          have hn : getHash n = h := by
            have hle : (getHash a).value ≤ (getHash n).value := Nat.le_of_not_lt han
            rw [ha] at hle
            rw [hbh] at hnb
            generalize getHash n = x at hle hnb ⊢
            cases x
            cases h
            exact congrArg Hash.mk (le_antisymm hnb hle)
          have hne := (List.isChain_cons_cons.mp hduplicate).1
          rw [heq a (by simp) n (by simp) ha hn] at hne
          cases hne
      rw [hnone]
      split
      · exact le_rfl
      · exact Nat.zero_le _
    · rw [if_neg (by simpa using ha)]
      exact hrest

/-- Values on both sides of a list that was put together are counted twice. -/
theorem two_le_countP {α : Type} {p : α → Bool} {front extra back l : List α}
    (hl : l.Perm (front ++ extra ++ back)) {a b : α} (ha : a ∈ extra) (hb : b ∈ back)
    (hpa : p a = true) (hpb : p b = true) : 2 ≤ l.countP p := by
  have hextra : 0 < extra.countP p := List.countP_pos_iff.mpr ⟨a, ha, hpa⟩
  have hback : 0 < back.countP p := List.countP_pos_iff.mpr ⟨b, hb, hpb⟩
  rw [hl.countP_eq, List.countP_append, List.countP_append]
  omega

/-- **A validation together with the mempool sees a conflict**: a transaction that was validated
with the aggregate of some others, and whose conflicts with them can be seen, has none. -/
theorem apart_of_isValidTransaction (hG : G.InjectiveOnBytes)
    {front memPool : List Transaction} {extra tx aggregated : Transaction}
    (hextra : Aggregates memPool extra)
    (haggregates : Aggregates (front ++ [extra] ++ [tx]) aggregated)
    (hvalid : ValidTransactionFinder.isValidTransaction G s aggregated = true)
    (hfront : ∀ v ∈ front, ∀ m ∈ memPool, Comparable G v m)
    (htx : ∀ m ∈ memPool, Comparable G tx m) {m : Transaction} (hm : m ∈ memPool) :
    Apart G m tx := by
  have hbody : TxBodyValidator.validate G aggregated.body = .ok () := by
    rw [ValidTransactionFinder.isValidTransaction] at hvalid
    split at hvalid
    · cases hvalid
    · next hok =>
      obtain ⟨_, -, hok⟩ := Exec.of_bind_eq_ok hok
      obtain ⟨_, hbody, -⟩ := Exec.of_bind_eq_ok hok
      exact hbody
  have hchecked := TxBodyValidator.checked_of_validate hbody
  have hinputs : aggregated.body.inputs.Perm
      ((front.flatMap fun v => v.body.inputs) ++ extra.body.inputs ++ tx.body.inputs) := by
    simpa using haggregates.inputs
  have houtputs : aggregated.body.outputs.Perm
      ((front.flatMap fun v => v.body.outputs) ++ extra.body.outputs ++ tx.body.outputs) := by
    simpa using haggregates.outputs
  refine ⟨?_, ?_, fun k hk l hl => ((htx m hm).kernels l hl k hk).symm⟩
  · -- All inputs of this output are the one in the mempool.
    intro i hi j hj heq
    have hji : j = i := (htx m hm).inputs j hj i hi heq.symm
    have hsame : ∀ x ∈ aggregated.body.inputs, x.getHash G = i.getHash G → x = i := by
      intro x hx hhash
      have hcommitment : x.commitment = i.commitment := CBigInteger.ext_bytes (hG _ _ hhash)
      rw [hinputs.mem_iff, List.mem_append, List.mem_append, List.mem_flatMap] at hx
      rcases hx with (⟨v, hv, hx⟩ | hx) | hx
      · exact (hfront v hv m hm).inputs x hx i hi hcommitment
      · rw [hextra.inputs.mem_iff, List.mem_flatMap] at hx
        obtain ⟨m', hm', hx⟩ := hx
        rw [← hji]
        exact ((htx m' hm').inputs j hj x hx (by rw [hji, hcommitment])).symm
      · exact (htx m hm).inputs x hx i hi hcommitment
    have hone := countP_getHash_le_one hchecked.sortedInputs hchecked.inputs
      (h := i.getHash G) fun a ha b hb hah hbh =>
        decide_eq_true ((hsame b hb hbh).trans (hsame a ha hah).symm)
    have htwo := two_le_countP (p := fun x => decide (x.getHash G = i.getHash G)) hinputs
      (hextra.inputs.mem_iff.mpr (List.mem_flatMap.mpr ⟨m, hm, hi⟩)) hj
      (decide_eq_true rfl) (decide_eq_true (by rw [hji]))
    omega
  · intro o ho p hp heq
    have hfeatures := (htx m hm).outputs p hp o ho heq.symm
    have hhash : p.getHash G = o.getHash G := by
      rw [TransactionOutput.getHash, TransactionOutput.getHash, OutputIdentifier.fromOutput,
        OutputIdentifier.fromOutput, hfeatures, heq]
    have hone := countP_getHash_le_one hchecked.sortedOutputs hchecked.outputs
      (h := o.getHash G) fun a _ b _ hah hbh => decide_eq_true (hbh.trans hah.symm)
    have htwo := two_le_countP (p := fun x => decide (x.getHash G = o.getHash G)) houtputs
      (hextra.outputs.mem_iff.mpr (List.mem_flatMap.mpr ⟨m, hm, ho⟩)) hp
      (decide_eq_true rfl) (decide_eq_true hhash)
    omega

/-! ### One pool after a block -/

namespace Pool

/-- What is found by its hash is the transaction itself. -/
theorem map_filterMap_find (hG : G.InjectiveOnBytes) {filtered : Pool}
    (hfits : ∀ e ∈ filtered, e.transaction.Fits) {valid : List Transaction}
    (hvalid : valid ⊆ filtered.map TxPoolEntry.transaction) :
    (valid.filterMap fun tx => filtered.find? fun e => e.transaction.getHash G = tx.getHash G).map
      TxPoolEntry.transaction = valid := by
  rw [List.map_filterMap]
  have hsome : ∀ tx ∈ valid, (Option.map TxPoolEntry.transaction
      (filtered.find? fun e => decide (e.transaction.getHash G = tx.getHash G))) = some tx := by
    intro tx htx
    obtain ⟨e, he, rfl⟩ := List.mem_map.mp (hvalid htx)
    rcases hfind : filtered.find? fun a => decide (a.transaction.getHash G =
        e.transaction.getHash G) with _ | a
    · have hnone := List.find?_eq_none.mp hfind e he
      simp at hnone
    · have hhash : a.transaction.getHash G = e.transaction.getHash G := by
        simpa using List.find?_some hfind
      rw [hfind, Option.map_some, Transaction.eq_of_getHash_eq hG
        (hfits a (List.mem_of_find?_eq_some hfind)) (hfits e he) hhash]
  rw [List.filterMap_congr hsome, List.filterMap_some]

/-- **What stays in a pool after a block** are transactions of the pool that are valid alone in
the hash set behind the block. -/
theorem reconcileBlock_spec (hG : G.InjectiveOnBytes) (hsums : G.SumsBlinds) (s' : UtxoState)
    (block : FullBlock) (extra : Option Transaction) {p : Pool}
    (hp : ∀ e ∈ p, Admissible G s e.transaction) (hextra : ∀ tx ∈ extra, Admissible G s tx)
    (hfits : ∀ e ∈ p, e.transaction.Fits) :
    ∃ q : Pool, reconcileBlock G s' block extra p = (.ok (), q) ∧
      (q.map TxPoolEntry.transaction).Sublist (p.map TxPoolEntry.transaction) ∧
      ∀ tx ∈ q.map TxPoolEntry.transaction, s'.txHashSet.isValid G s'.blockDB tx = true := by
  have hsub : (p.filter fun e => !shouldEvict G e.transaction block).Sublist p :=
    List.filter_sublist
  rw [reconcileBlock]
  set filtered := p.filter fun e => !shouldEvict G e.transaction block
  obtain ⟨valid, hfound, hvalid, hchecked⟩ :=
    ValidTransactionFinder.findValidTransactions_spec hsums s' hextra
      (filtered.map TxPoolEntry.transaction) [] (by
        intro tx htx
        obtain ⟨e, he, rfl⟩ := List.mem_map.mp htx
        exact hp e (hsub.subset he)) (by simp)
  rw [List.nil_append] at hfound
  rw [hfound]
  have hmap := map_filterMap_find hG (fun e he => hfits e (hsub.subset he)) hvalid.subset
  refine ⟨_, rfl, ?_, ?_⟩
  · rw [hmap]
    exact hvalid.trans (hsub.map _)
  · rw [hmap]
    intro tx htx
    obtain ⟨front, aggregated, -, haggregates, hok⟩ := hchecked tx htx
    exact ValidTransactionFinder.isValid_of_isValidTransaction haggregates hok

/-- The aggregate of a pool. -/
theorem aggregate_spec (hsums : G.SumsBlinds) {p : Pool}
    (hp : ∀ e ∈ p, Admissible G s e.transaction) :
    (p = [] ∧ aggregate G p = .ok none) ∨
      ∃ tx, aggregate G p = .ok (some tx) ∧ Aggregates (p.map TxPoolEntry.transaction) tx ∧
        Admissible G s tx := by
  rcases p with _ | ⟨e, p⟩
  · exact .inl ⟨rfl, rfl⟩
  · have hall : ∀ tx ∈ (e :: p).map TxPoolEntry.transaction, Admissible G s tx := by
      intro tx htx
      obtain ⟨e', he', rfl⟩ := List.mem_map.mp htx
      exact hp e' he'
    obtain ⟨tx, htx, haggregates, hadmissible⟩ := exists_aggregate hsums (by simp) hall
    refine .inr ⟨tx, ?_, haggregates, hadmissible⟩
    rw [aggregate, List.isEmpty_cons, if_neg Bool.false_ne_true, htx]
    rfl

/-- A change of status keeps the transactions. -/
theorem map_changeStatus (pointers : List (TxPoolEntry × ℕ)) (status : EDandelionStatus)
    (p : Pool) :
    (p.changeStatus pointers status).map TxPoolEntry.transaction =
      p.map TxPoolEntry.transaction := by
  rw [changeStatus, List.map_map]
  have hsame : ∀ e ∈ p.zipIdx, (TxPoolEntry.transaction ∘ fun e : TxPoolEntry × ℕ =>
      if e ∈ pointers then { e.1 with status := status } else e.1) e =
        (TxPoolEntry.transaction ∘ Prod.fst) e := by
    intro e _
    simp only [Function.comp_apply]
    split <;> rfl
  rw [List.map_congr_left hsame, ← List.map_map, List.zipIdx_map_fst]

end Pool

/-! ### Calls -/

/-- The pools, and the hash set that is current, with the database. -/
structure PoolState where
  /-- The pools. -/
  pools : TransactionPool
  /-- The hash set. -/
  utxo : UtxoState

/-- A call, with everything that comes from outside: the numbers that are drawn, the time, and
the hash set that a block leaves behind. -/
inductive PoolCall
  /-- `AddTransaction`. -/
  | addTransaction (tx : Transaction) (poolType : EPoolType) (lastConfirmedBlock : BlockHeader)
      (random : UInt8) (now : ℤ)
  /-- `GetTransactionToStem`. -/
  | getTransactionToStem
  /-- `GetTransactionToFluff`. -/
  | getTransactionToFluff (now : ℤ)
  /-- `ReconcileBlock`. -/
  | reconcileBlock (utxo : UtxoState) (block : FullBlock)

namespace PoolState

variable (G) in
/-- One call. -/
def call (config : Config) (st : PoolState) : PoolCall → PoolState
  | .addTransaction tx poolType lastConfirmedBlock random now =>
    { st with
      pools := (st.pools.addTransaction G config st.utxo.blockDB (some st.utxo.txHashSet) tx
        poolType lastConfirmedBlock random now).2 }
  | .getTransactionToStem =>
    { st with pools := (st.pools.getTransactionToStem G st.utxo).2 }
  | .getTransactionToFluff now =>
    { st with pools := (st.pools.getTransactionToFluff G now st.utxo).2 }
  | .reconcileBlock utxo block =>
    ⟨(st.pools.reconcileBlock G utxo block).2, utxo⟩

variable (G) in
/-- A run of calls. -/
def run (config : Config) (st : PoolState) (calls : List PoolCall) : PoolState :=
  calls.foldl (call G config) st

/-- Both pools are empty. -/
def start (utxo : UtxoState) : PoolState :=
  ⟨⟨[], []⟩, utxo⟩

end PoolState

variable (G) in
/-- **The mempool is jointly mineable**: no two of its transactions spend or create the same
output or share a kernel, and their aggregate is accepted by the current hash set. -/
structure JointlyMineable (st : PoolState) : Prop where
  /-- The transactions are apart. -/
  apart : (st.pools.memPool.map TxPoolEntry.transaction).Pairwise (Apart G)
  /-- They can be aggregated, and the aggregate is valid. -/
  aggregate : ∃ aggregated, st.pools.memPool.aggregate G = .ok aggregated ∧
    ∀ tx ∈ aggregated, st.utxo.txHashSet.isValid G st.utxo.blockDB tx = true

/-- What `AddTransaction` asks of a transaction, whatever else is in the pools. -/
structure Acceptable (G : Global) (config : Config) (s : UtxoState)
    (lastConfirmedBlock : BlockHeader) (tx : Transaction) : Prop where
  /-- `FeeMeetsMinimum`. -/
  fee : tx.feeMeetsMinimum G config (lastConfirmedBlock.getHeight + 1) = true
  /-- No kernel is locked. -/
  lockHeight : ∀ kernel ∈ tx.body.kernels,
    kernel.lockHeight.toNat ≤ lastConfirmedBlock.getHeight + 1
  /-- `TransactionValidator`. -/
  validate : TransactionValidator.validate G tx (lastConfirmedBlock.getHeight + 1) = .ok ()
  /-- `TxHashSet::IsValid`. -/
  isValid : s.txHashSet.isValid G s.blockDB tx = true

namespace PoolState

variable (G) in
/-- **The calls that keep the mempool jointly mineable.** What the mempool takes directly, being
new and acceptable, must be apart from what is there; what may be fluffed must be comparable with
it; and the transactions that are looked up by their hashes fit into memory. -/
def Admits (config : Config) (st : PoolState) : PoolCall → Prop
  | .addTransaction tx poolType lastConfirmedBlock _ _ =>
    poolType = .memPool → st.pools.memPool.containsTransaction G tx = false →
      Acceptable G config st.utxo lastConfirmedBlock tx →
        ∀ e ∈ st.pools.memPool, Apart G e.transaction tx
  | .getTransactionToStem => True
  | .getTransactionToFluff _ =>
    ∀ tx ∈ st.pools.stemPool.findTransactionsByStatus .toFluff, ∀ e ∈ st.pools.memPool,
      Comparable G tx e.transaction
  | .reconcileBlock _ _ => ∀ e ∈ st.pools.memPool ++ st.pools.stemPool, e.transaction.Fits

variable (G) in
/-- Every call of a run is admitted where it is made. -/
def AdmitsAll (config : Config) : PoolState → List PoolCall → Prop
  | _, [] => True
  | st, c :: calls => st.Admits G config c ∧ AdmitsAll config (st.call G config c) calls

variable (G) in
/-- The invariant: every transaction of either pool is valid alone, and those of the mempool are
apart. -/
structure Kept (st : PoolState) : Prop where
  /-- Those of the mempool are valid alone. -/
  memPool : ∀ e ∈ st.pools.memPool, Admissible G st.utxo e.transaction
  /-- So are those of the stempool. -/
  stemPool : ∀ e ∈ st.pools.stemPool, Admissible G st.utxo e.transaction
  /-- Those of the mempool are apart. -/
  apart : (st.pools.memPool.map TxPoolEntry.transaction).Pairwise (Apart G)

theorem kept_start (utxo : UtxoState) : Kept G (start utxo) :=
  ⟨by simp [start], by simp [start], List.Pairwise.nil⟩

theorem Kept.jointlyMineable (hsums : G.SumsBlinds) {st : PoolState} (h : Kept G st) :
    JointlyMineable G st := by
  refine ⟨h.apart, ?_⟩
  rcases Pool.aggregate_spec hsums h.memPool with ⟨-, hnone⟩ | ⟨tx, htx, -, hadmissible⟩
  · exact ⟨none, hnone, by simp⟩
  · refine ⟨some tx, htx, ?_⟩
    rintro _ ⟨⟩
    exact hadmissible.isValid

/-! ### Each call keeps the invariant -/

variable {config : Config}

/-- Either the pools stay, or the transaction is acceptable and enters. -/
theorem addTransaction_cases (config : Config) (tx : Transaction) (poolType : EPoolType)
    (lastConfirmedBlock : BlockHeader) (random : UInt8) (now : ℤ) (p : TransactionPool) :
    (p.addTransaction G config s.blockDB (some s.txHashSet) tx poolType lastConfirmedBlock random
        now).2 = p ∨
      Acceptable G config s lastConfirmedBlock tx ∧
        ((poolType = .memPool ∧ p.memPool.containsTransaction G tx = false ∧
          (p.addTransaction G config s.blockDB (some s.txHashSet) tx poolType lastConfirmedBlock
            random now).2 =
            ⟨p.memPool ++ [⟨tx, .fluffed, now⟩], p.stemPool.removeTransaction G tx⟩) ∨
        ∃ status, (p.addTransaction G config s.blockDB (some s.txHashSet) tx poolType
          lastConfirmedBlock random now).2 =
            ⟨p.memPool, p.stemPool ++ [⟨tx, status, now⟩]⟩) := by
  unfold TransactionPool.addTransaction
  dsimp only
  split
  · exact .inl rfl
  next hnew =>
  split
  · exact .inl rfl
  next hfee =>
  split
  · exact .inl rfl
  next hlock =>
  split
  · exact .inl rfl
  next hvalidate =>
  split
  · exact .inl rfl
  next hvalid =>
  refine .inr ⟨⟨by simpa using hfee, ?_, hvalidate, by simpa using hvalid⟩, ?_⟩
  · intro kernel hkernel
    by_contra hlt
    exact hlock ⟨kernel, hkernel, by omega⟩
  · rcases poolType with _ | _
    · exact .inr ⟨_, rfl⟩
    · exact .inl ⟨rfl, by simpa using hnew, rfl⟩

theorem Kept.addTransaction {st : PoolState} (h : Kept G st) {tx : Transaction}
    {poolType : EPoolType} {lastConfirmedBlock : BlockHeader} {random : UInt8} {now : ℤ}
    (hadmits : st.Admits G config (.addTransaction tx poolType lastConfirmedBlock random now)) :
    Kept G (st.call G config (.addTransaction tx poolType lastConfirmedBlock random now)) := by
  rw [call]
  rcases addTransaction_cases (G := G) (s := st.utxo) config tx poolType lastConfirmedBlock random
    now st.pools with heq | ⟨haccept, ⟨htype, hnew, heq⟩ | ⟨status, heq⟩⟩
  · rw [heq]
    exact h
  · have hadmissible : Admissible G st.utxo tx :=
      ⟨haccept.isValid, usable_of_validate haccept.validate⟩
    rw [heq]
    refine ⟨?_, ?_, ?_⟩
    · intro e he
      rcases List.mem_append.mp he with he | he
      · exact h.memPool e he
      · rw [List.mem_singleton.mp he]
        exact hadmissible
    · exact fun e he => h.stemPool e (List.mem_of_mem_eraseP he)
    · dsimp only
      rw [List.map_append, List.map_singleton, List.pairwise_append]
      refine ⟨h.apart, List.pairwise_singleton _ _, ?_⟩
      intro tx' htx' tx'' htx''
      obtain ⟨e, he, rfl⟩ := List.mem_map.mp htx'
      rw [List.mem_singleton.mp htx'']
      exact hadmits htype hnew haccept e he
  · rw [heq]
    refine ⟨h.memPool, ?_, h.apart⟩
    intro e he
    rcases List.mem_append.mp he with he | he
    · exact h.stemPool e he
    · rw [List.mem_singleton.mp he]
      exact ⟨haccept.isValid, usable_of_validate haccept.validate⟩

/-- Only statuses change. -/
theorem getTransactionToStem_cases (s : UtxoState) (p : TransactionPool) :
    (p.getTransactionToStem G s).2.memPool = p.memPool ∧
      (p.getTransactionToStem G s).2.stemPool.map TxPoolEntry.transaction =
        p.stemPool.map TxPoolEntry.transaction := by
  rw [TransactionPool.getTransactionToStem]
  split
  · exact ⟨rfl, rfl⟩
  · unfold TransactionPool.unlessThrown
    split
    · exact ⟨rfl, rfl⟩
    · next found q heq =>
      obtain ⟨extra, -, heq⟩ := Exec.of_bind_eq_ok heq
      obtain ⟨valid, -, heq⟩ := Exec.of_bind_eq_ok heq
      split at heq
      · cases heq
        exact ⟨rfl, rfl⟩
      · obtain ⟨tx, -, heq⟩ := Exec.of_bind_eq_ok heq
        cases heq
        exact ⟨rfl, Pool.map_changeStatus valid .stemmed p.stemPool⟩

theorem Kept.getTransactionToStem {st : PoolState} (h : Kept G st) :
    Kept G (st.call G config .getTransactionToStem) := by
  obtain ⟨hmem, hstem⟩ := getTransactionToStem_cases (G := G) st.utxo st.pools
  rw [call]
  refine ⟨?_, ?_, ?_⟩
  · dsimp only
    rw [hmem]
    exact h.memPool
  · intro e he
    have hmap := List.mem_map_of_mem (f := TxPoolEntry.transaction) he
    dsimp only at hmap
    rw [hstem] at hmap
    obtain ⟨e', he', heq⟩ := List.mem_map.mp hmap
    rw [← heq]
    exact h.stemPool e' he'
  · dsimp only
    rw [hmem]
    exact h.apart

theorem mem_of_mem_removeAll {valid : List Transaction} {p : Pool} {e : TxPoolEntry}
    (h : e ∈ valid.foldl (fun stemPool tx => stemPool.removeTransaction G tx) p) : e ∈ p := by
  induction valid generalizing p with
  | nil => exact h
  | cons tx valid ih => exact List.mem_of_mem_eraseP (ih h)

/-- **What is fluffed is apart from the mempool**, because it was validated together with it. -/
theorem Kept.getTransactionToFluff (hG : G.InjectiveOnBytes) (hsums : G.SumsBlinds)
    {st : PoolState} (h : Kept G st) {now : ℤ}
    (hadmits : st.Admits G config (.getTransactionToFluff now)) :
    Kept G (st.call G config (.getTransactionToFluff now)) := by
  rw [call, TransactionPool.getTransactionToFluff]
  split
  · exact h
  unfold TransactionPool.unlessThrown
  split
  · exact h
  next found q heq =>
  obtain ⟨extra, hextra, heq⟩ := Exec.of_bind_eq_ok heq
  obtain ⟨valid, hvalid, heq⟩ := Exec.of_bind_eq_ok heq
  split at heq
  · cases heq
    exact h
  next hne =>
  obtain ⟨tx, htx, heq⟩ := Exec.of_bind_eq_ok heq
  cases heq
  have hstem : ∀ v ∈ st.pools.stemPool.findTransactionsByStatus .toFluff,
      Admissible G st.utxo v := by
    intro v hv
    obtain ⟨e, he, rfl⟩ := List.mem_map.mp hv
    exact h.stemPool e (List.mem_of_mem_filter he)
  have hmem : ∀ e ∈ extra, Admissible G st.utxo e := by
    rcases Pool.aggregate_spec hsums h.memPool with ⟨-, hnone⟩ | ⟨agg, hagg, -, hadmissible⟩
    · rw [hnone] at hextra
      cases hextra
      simp
    · rw [hagg] at hextra
      cases hextra
      rintro _ ⟨⟩
      exact hadmissible
  obtain ⟨l, hl, hsub, hchecked⟩ := ValidTransactionFinder.findValidTransactions_spec hsums
    st.utxo hmem _ [] hstem (by simp)
  rw [hl, List.nil_append] at hvalid
  cases hvalid
  have hall : ∀ v ∈ valid, Admissible G st.utxo v := fun v hv => hstem v (hsub.subset hv)
  obtain ⟨tx', htx', haggregates, hadmissible⟩ := exists_aggregate hsums
    (fun hnil => hne (by rw [hnil]; rfl)) hall
  rw [htx'] at htx
  cases htx
  have hapart : ∀ e ∈ st.pools.memPool, ∀ v ∈ valid, Apart G e.transaction v := by
    intro e he v hv
    obtain ⟨front, aggregated, hfront, hfluffed, hok⟩ := hchecked v hv
    rcases Pool.aggregate_spec hsums h.memPool with ⟨hnil, -⟩ | ⟨agg, hagg, hall, -⟩
    · rw [hnil] at he
      cases he
    · rw [hagg] at hextra
      cases hextra
      have hcomparable : ∀ v ∈ st.pools.stemPool.findTransactionsByStatus .toFluff,
          ∀ m ∈ st.pools.memPool.map TxPoolEntry.transaction, Comparable G v m := by
        intro v hv m hm
        obtain ⟨e, he, rfl⟩ := List.mem_map.mp hm
        exact hadmits v hv e he
      rw [List.nil_append] at hfront
      exact apart_of_isValidTransaction hG hall hfluffed hok
        (fun v hv => hcomparable v (hfront hv)) (hcomparable v (hsub.subset hv))
        (List.mem_map_of_mem he)
  refine ⟨?_, fun e he => h.stemPool e (mem_of_mem_removeAll he), ?_⟩
  · intro e he
    rcases List.mem_append.mp he with he | he
    · exact h.memPool e he
    · rw [List.mem_singleton.mp he]
      exact hadmissible
  · dsimp only [Pool.addTransaction]
    rw [List.map_append, List.map_singleton, List.pairwise_append]
    refine ⟨h.apart, List.pairwise_singleton _ _, ?_⟩
    intro a ha b hb
    obtain ⟨e, he, rfl⟩ := List.mem_map.mp ha
    rw [List.mem_singleton.mp hb]
    refine ⟨?_, ?_, ?_⟩
    · intro i hi j hj
      obtain ⟨v, hv, hj⟩ := List.mem_flatMap.mp (haggregates.inputs.mem_iff.mp hj)
      exact (hapart e he v hv).inputs i hi j hj
    · intro o ho p hp
      obtain ⟨v, hv, hp⟩ := List.mem_flatMap.mp (haggregates.outputs.mem_iff.mp hp)
      exact (hapart e he v hv).outputs o ho p hp
    · intro k hk m hm
      obtain ⟨v, hv, hm⟩ := List.mem_flatMap.mp (haggregates.kernels.mem_iff.mp hm)
      exact (hapart e he v hv).kernels k hk m hm

/-- **What stays after a block is valid alone in the new hash set.** -/
theorem Kept.reconcileBlock (hG : G.InjectiveOnBytes) (hsums : G.SumsBlinds) {st : PoolState}
    (h : Kept G st) {utxo : UtxoState} {block : FullBlock}
    (hadmits : st.Admits G config (.reconcileBlock utxo block)) :
    Kept G (st.call G config (.reconcileBlock utxo block)) := by
  obtain ⟨memPool, hmem, hsub, hvalid⟩ := Pool.reconcileBlock_spec hG hsums utxo block none
    h.memPool (by simp) fun e he => hadmits e (List.mem_append_left _ he)
  -- The offsets are those of before.
  have hadmissible : ∀ e ∈ memPool, Admissible G utxo e.transaction := by
    intro e he
    have hmap := List.mem_map_of_mem (f := TxPoolEntry.transaction) he
    obtain ⟨e', he', heq⟩ := List.mem_map.mp (hsub.subset hmap)
    exact ⟨hvalid _ hmap, heq ▸ (h.memPool e' he').offset⟩
  have hold : ∀ e ∈ memPool, Admissible G st.utxo e.transaction := by
    intro e he
    obtain ⟨e', he', heq⟩ := List.mem_map.mp
      (hsub.subset (List.mem_map_of_mem (f := TxPoolEntry.transaction) he))
    exact heq ▸ h.memPool e' he'
  have hapart := h.apart.sublist hsub
  obtain ⟨extra, hextra, hextraOld⟩ : ∃ extra, Pool.aggregate G memPool = .ok extra ∧
      ∀ tx ∈ extra, Admissible G st.utxo tx := by
    rcases Pool.aggregate_spec hsums hold with ⟨-, hnone⟩ | ⟨tx, htx, -, hold⟩
    · exact ⟨none, hnone, by simp⟩
    · refine ⟨some tx, htx, ?_⟩
      rintro _ ⟨⟩
      exact hold
  obtain ⟨stemPool, hstem, hsub', hvalid'⟩ := Pool.reconcileBlock_spec hG hsums utxo block
    extra h.stemPool hextraOld fun e he => hadmits e (List.mem_append_right _ he)
  rw [call, TransactionPool.reconcileBlock, hmem]
  dsimp only
  rw [hextra]
  dsimp only
  rw [hstem]
  refine ⟨hadmissible, ?_, hapart⟩
  intro e he
  have hmap := List.mem_map_of_mem (f := TxPoolEntry.transaction) he
  obtain ⟨e', he', heq⟩ := List.mem_map.mp (hsub'.subset hmap)
  exact ⟨hvalid' _ hmap, heq ▸ (h.stemPool e' he').offset⟩

theorem Kept.call (hG : G.InjectiveOnBytes) (hsums : G.SumsBlinds) {st : PoolState}
    (h : Kept G st) {c : PoolCall} (hadmits : st.Admits G config c) :
    Kept G (st.call G config c) := by
  rcases c with ⟨tx, poolType, header, random, now⟩ | _ | now | ⟨utxo, block⟩
  · exact h.addTransaction hadmits
  · exact h.getTransactionToStem
  · exact h.getTransactionToFluff hG hsums hadmits
  · exact h.reconcileBlock hG hsums hadmits

theorem Kept.run (hG : G.InjectiveOnBytes) (hsums : G.SumsBlinds) {st : PoolState}
    (h : Kept G st) {calls : List PoolCall} (hadmits : AdmitsAll G config st calls) :
    Kept G (st.run G config calls) := by
  induction calls generalizing st with
  | nil => exact h
  | cons c calls ih => exact ih (h.call hG hsums hadmits.1) hadmits.2

end PoolState

/-- **The mempool is jointly mineable after every run of calls that are admitted**, whatever
transactions and blocks they come with. -/
theorem jointlyMineable_run (hG : G.InjectiveOnBytes) (hsums : G.SumsBlinds) (config : Config)
    (utxo : UtxoState) (calls : List PoolCall)
    (hadmits : PoolState.AdmitsAll G config (.start utxo) calls) :
    JointlyMineable G ((PoolState.start utxo).run G config calls) :=
  ((PoolState.kept_start utxo).run hG hsums hadmits).jointlyMineable hsums

/-! ### Two coins on the small network -/

namespace SmallNet

/-- Every blinding factor can be committed to, and the first one stands for the sum. -/
theorem sumsBlinds (env : Environment) : (smallNet env).SumsBlinds where
  sum := by
    rintro blinds hne -
    rcases blinds with _ | ⟨b, blinds⟩
    · exact absurd rfl hne
    · exact ⟨b, rfl, .inr rfl⟩

/-- A state with two unspent outputs, of 100 and of 200. -/
def coinsState : UtxoState where
  blockDB :=
    { tables := Batch.of
        { header := fun _ => none
          block := fun _ => none
          blockSums := fun _ => none
          outputPos := fun c =>
            if c = commitment 100 then some ⟨0, 0⟩
            else if c = commitment 200 then some ⟨1, 0⟩
            else none
          spentOutputs := fun _ => none }
      headersCache := []
      uncommitted := [] }
  txHashSet :=
    { kernelMMR := Batch.of ⟨[], []⟩
      outputPMMR := Batch.of
        { hashFile := List.replicate 3 Hash.zero
          leafSet := fun i => decide (i < 2)
          pruneList := .empty
          dataFile := [⟨.default, commitment 100⟩, ⟨.default, commitment 200⟩] }
      rangeProofPMMR := Batch.of
        { hashFile := List.replicate 3 Hash.zero
          leafSet := fun i => decide (i < 2)
          pruneList := .empty
          dataFile := [rangeProof, rangeProof] }
      blockHeader := genesisHeader
      blockHeaderBackup := genesisHeader }

/-- A fee base that a fee of 10 meets, and an even chance to stem. -/
def poolConfig : Config := ⟨2, 50⟩

/-- One of the two coins is spent through the mempool, the other one through the stempool; then
comes a block. -/
def twoCoins : List PoolCall :=
  [.addTransaction firstTransaction .memPool genesisHeader 0 0,
    .addTransaction secondTransaction .stemPool genesisHeader 90 0,
    .getTransactionToStem,
    .getTransactionToFluff 0,
    .reconcileBlock coinsState ⟨genesisHeader, coinbaseBody 1⟩]

theorem admitsAll_twoCoins :
    PoolState.AdmitsAll (smallNet .mainnet) poolConfig (.start coinsState) twoCoins := by
  refine ⟨?_, ?_, trivial, ?_, ?_, trivial⟩
  · rintro - - - e ⟨⟩
  · rintro ⟨⟩
  · have hstem : ((PoolState.start coinsState).run (smallNet .mainnet) poolConfig
        (twoCoins.take 3)).pools.stemPool.findTransactionsByStatus .toFluff =
          [secondTransaction] := by
      decide +kernel
    have hmem : ((PoolState.start coinsState).run (smallNet .mainnet) poolConfig
        (twoCoins.take 3)).pools.memPool = [⟨firstTransaction, .fluffed, 0⟩] := by
      decide +kernel
    intro tx htx e he
    change tx ∈ ((PoolState.start coinsState).run (smallNet .mainnet) poolConfig
      (twoCoins.take 3)).pools.stemPool.findTransactionsByStatus .toFluff at htx
    change e ∈ ((PoolState.start coinsState).run (smallNet .mainnet) poolConfig
      (twoCoins.take 3)).pools.memPool at he
    rw [hstem] at htx
    rw [hmem] at he
    rw [List.mem_singleton.mp htx, List.mem_singleton.mp he]
    refine ⟨?_, ?_, ?_⟩
    · decide +kernel
    · decide +kernel
    · decide +kernel
  · have hpools : ((PoolState.start coinsState).run (smallNet .mainnet) poolConfig
        (twoCoins.take 4)).pools =
          ⟨[⟨firstTransaction, .fluffed, 0⟩, ⟨secondTransaction, .fluffed, 0⟩], []⟩ := by
      decide +kernel
    change ∀ e ∈ ((PoolState.start coinsState).run (smallNet .mainnet) poolConfig
      (twoCoins.take 4)).pools.memPool ++ ((PoolState.start coinsState).run (smallNet .mainnet)
        poolConfig (twoCoins.take 4)).pools.stemPool, e.transaction.Fits
    rw [hpools]
    intro e he
    rcases List.mem_cons.mp he with rfl | he
    · exact ⟨by decide, by decide, by decide⟩
    · rw [List.mem_singleton.mp he]
      exact ⟨by decide, by decide, by decide⟩

end SmallNet

open SmallNet in
/-- The mempool with both transactions. -/
theorem jointlyMineable_run_twoCoins :
    JointlyMineable (smallNet .mainnet)
        ((PoolState.start coinsState).run (smallNet .mainnet) poolConfig twoCoins) ∧
      ((PoolState.start coinsState).run (smallNet .mainnet) poolConfig
        twoCoins).pools.memPool.length = 2 :=
  ⟨jointlyMineable_run (injectiveOnBytes .mainnet) (sumsBlinds .mainnet) poolConfig coinsState
    twoCoins admitsAll_twoCoins, by decide +kernel⟩

open SmallNet in
/-- **Two transactions that spend the same coin are both added**, one after the other. -/
theorem not_jointlyMineable_run :
    ∃ calls, (∀ c ∈ calls, ∃ tx, c = .addTransaction tx .memPool genesisHeader 0 0) ∧
      ¬JointlyMineable (smallNet .mainnet)
        ((PoolState.start coinsState).run (smallNet .mainnet) poolConfig calls) := by
  refine ⟨[.addTransaction (smallTransaction 100 95) .memPool genesisHeader 0 0,
    .addTransaction (smallTransaction 100 94) .memPool genesisHeader 0 0], ?_, ?_⟩
  · intro c hc
    rcases List.mem_cons.mp hc with rfl | hc
    · exact ⟨_, rfl⟩
    · exact ⟨_, List.mem_singleton.mp hc⟩
  · intro h
    have hmem : ((PoolState.start coinsState).run (smallNet .mainnet) poolConfig
        [.addTransaction (smallTransaction 100 95) .memPool genesisHeader 0 0,
          .addTransaction (smallTransaction 100 94) .memPool genesisHeader 0 0]).pools.memPool =
        [⟨smallTransaction 100 95, .fluffed, 0⟩, ⟨smallTransaction 100 94, .fluffed, 0⟩] := by
      decide +kernel
    have hapart := h.apart
    rw [hmem] at hapart
    have hpair := (List.pairwise_pair.mp hapart).inputs
    exact hpair _ (List.mem_singleton_self _) _ (List.mem_singleton_self _) rfl

end GrinPlusPlus
