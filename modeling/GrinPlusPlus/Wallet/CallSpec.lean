import GrinPlusPlus.Wallet.BuilderSpec
import GrinPlusPlus.Wallet.WalletManager

/-!
# What the calls of a wallet did

The calls that rewrite rows of several transactions at once, a refresh and a cancellation, each
brought down to what the rows afterwards can be; and then all calls, in one relation
(`GrinPlusPlus.WalletStep`), from which every invariant of the wallet is derived.

A refresh works on two copies of the outputs, the rows of the database and the ones in memory.
`GrinPlusPlus.WalletRefresher.Mirrors` says how they hang together while unknown outputs are added.
-/

namespace GrinPlusPlus

/-! ### What neither call writes -/

/-- Two databases have the same slates and contexts. -/
structure SameSlates (db db' : WalletDB) : Prop where
  /-- The slates. -/
  slates : db'.slates = db.slates
  /-- The contexts. -/
  slateContexts : db'.slateContexts = db.slateContexts

namespace SameSlates

theorem refl (db : WalletDB) : SameSlates db db := ⟨rfl, rfl⟩

theorem trans {db db' db'' : WalletDB} (h : SameSlates db db') (h' : SameSlates db' db'') :
    SameSlates db db'' :=
  ⟨h'.slates.trans h.slates, h'.slateContexts.trans h.slateContexts⟩

/-- A loop of writes that keep the slates keeps the slates. -/
theorem foldl {α : Type} {f : WalletDB → α → WalletDB} (hf : ∀ db a, SameSlates db (f db a))
    (as : List α) (db : WalletDB) : SameSlates db (as.foldl f db) := by
  induction as generalizing db with
  | nil => exact refl db
  | cons a as ih => exact (hf db a).trans (ih _)

end SameSlates

/-- A refresh keeps the slates. -/
theorem sameSlates_refresh (db : WalletDB) (answers : RefreshAnswers) :
    SameSlates db (WalletRefresher.refresh db answers).2 := by
  have hnew : ∀ (outputs : List OutputDataEntity) (s : WalletRefresher.RefreshState),
      SameSlates s.db (outputs.foldl WalletRefresher.addNewOutput s).db := by
    intro outputs
    induction outputs with
    | nil => exact fun s => SameSlates.refl s.db
    | cons output outputs ih =>
      intro s
      have hstep : SameSlates s.db (WalletRefresher.addNewOutput s output).db := ⟨rfl, rfl⟩
      exact hstep.trans (ih (WalletRefresher.addNewOutput s output))
  have hwrites : ∀ s : WalletRefresher.RefreshState,
      SameSlates s.db (WalletRefresher.refreshTransactions s) := fun s =>
    SameSlates.foldl (fun db t =>
      ⟨WalletDB.slates_addTransaction db t, WalletDB.slateContexts_addTransaction db t⟩)
      _ s.db
  rw [WalletRefresher.refresh]
  split
  · exact SameSlates.refl db
  · have houtputs : ∀ s, SameSlates s.db (WalletRefresher.refreshOutputs answers s).db :=
      fun s => ⟨rfl, rfl⟩
    exact ((hnew _ ⟨db, db.outputs, db.transactions⟩).trans (houtputs _)).trans (hwrites _)

/-- Cancelling keeps the slates. -/
theorem sameSlates_cancelTx {db db' : WalletDB} {walletTxId : UInt32}
    (h : cancelTx db walletTxId = .ok db') : SameSlates db db' := by
  rw [cancelTx] at h
  split at h
  · obtain ⟨_, -, h⟩ := Exec.of_bind_eq_ok h
    obtain ⟨_, -, h⟩ := Exec.of_bind_eq_ok h
    cases h
    exact ⟨rfl, rfl⟩
  · cases h
    exact SameSlates.refl db

/-! ### Several transactions, written one after the other -/

namespace WalletDB

theorem foldl_addTransaction (ts : List WalletTx) (db : WalletDB) :
    ts.foldl addTransaction db =
      { db with
        transactions := List.upsertAll WalletTx.walletTxId placeTransaction
          (ts.map WalletTx.reload) db.transactions } := by
  induction ts generalizing db with
  | nil => rfl
  | cons t ts ih =>
    rw [List.foldl_cons, ih]
    rfl

/-- A row after several writes was written or was there. -/
theorem of_mem_foldl_addTransaction {ts : List WalletTx} {db : WalletDB} {u : WalletTx}
    (h : u ∈ (ts.foldl addTransaction db).transactions) :
    (∃ t ∈ ts, u = t.reload) ∨ u ∈ db.transactions := by
  rw [foldl_addTransaction] at h
  rcases List.of_mem_upsertAll perm_placeTransaction h with h | ⟨h, -⟩
  · obtain ⟨t, ht, rfl⟩ := List.mem_map.mp h
    exact .inl ⟨t, ht, rfl⟩
  · exact .inr h

/-- The numbers of the transactions are different. -/
def NodupIds (db : WalletDB) : Prop := (db.transactions.map WalletTx.walletTxId).Nodup

theorem NodupIds.addTransaction {db : WalletDB} (h : db.NodupIds) (t : WalletTx) :
    (db.addTransaction t).NodupIds :=
  List.nodup_upsert perm_placeTransaction _ h

theorem NodupIds.foldl_addTransaction {db : WalletDB} (h : db.NodupIds) (ts : List WalletTx) :
    (ts.foldl WalletDB.addTransaction db).NodupIds := by
  induction ts generalizing db with
  | nil => exact h
  | cons t ts ih => exact ih (h.addTransaction t)

end WalletDB

/-! ### Refreshing -/

namespace WalletRefresher

variable {db : WalletDB} {answers : RefreshAnswers}

/-- An output has the commitment and the status of another. -/
def SameCoin (o p : OutputDataEntity) : Prop :=
  o.getCommitment = p.getCommitment ∧ o.status = p.status

/-- What stays true while unknown outputs are added. -/
structure Mirrors (db : WalletDB) (restored : List OutputDataEntity) (s : RefreshState) :
    Prop where
  /-- The rows of the outputs are in memory, … -/
  outputs : ∀ y ∈ s.db.outputs, ∃ o ∈ s.walletOutputs, SameCoin o y
  /-- … where every output was known or is one of those that were not. -/
  walletOutputs : ∀ o ∈ s.walletOutputs, ∃ p ∈ db.outputs ++ restored, SameCoin p o
  /-- The rows of the transactions were there, or are those of unknown outputs. -/
  transactions : ∀ u ∈ s.db.transactions, u ∈ db.transactions ∨
    (u.type = .received ∧ u.slateIdOpt = none)
  /-- So are the transactions in memory. -/
  walletTransactions : ∀ u ∈ s.walletTransactions, u ∈ db.transactions ∨
    (u.type = .received ∧ u.slateIdOpt = none)
  /-- The numbers are different. -/
  nodupIds : s.db.NodupIds

theorem mirrors_start (h : db.NodupIds) (restored : List OutputDataEntity) :
    Mirrors db restored ⟨db, db.outputs, db.transactions⟩ where
  outputs y hy := ⟨y, hy, rfl, rfl⟩
  walletOutputs o ho := ⟨o, List.mem_append_left _ ho, rfl, rfl⟩
  transactions _ hu := .inl hu
  walletTransactions _ hu := .inl hu
  nodupIds := h

/-- One output that was not known. -/
theorem Mirrors.addNewOutput {restored : List OutputDataEntity} {s : RefreshState}
    (h : Mirrors db restored s) {output : OutputDataEntity} (houtput : output ∈ restored) :
    Mirrors db restored (WalletRefresher.addNewOutput s output) := by
  constructor
  · intro y hy
    rcases List.of_mem_upsertAll List.perm_placeLast hy with hy | ⟨hy, -⟩
    · obtain ⟨o, ho, rfl⟩ := List.mem_map.mp hy
      exact ⟨o, List.mem_append_right _ ho, rfl, rfl⟩
    · obtain ⟨o, ho, hsame⟩ := h.outputs y hy
      exact ⟨o, List.mem_append_left _ ho, hsame⟩
  · intro o ho
    rcases List.mem_append.mp ho with ho | ho
    · exact h.walletOutputs o ho
    · rw [List.mem_singleton.mp ho]
      exact ⟨output, List.mem_append_right _ houtput, rfl, rfl⟩
  · intro u hu
    rcases (List.mem_upsert_iff perm_placeTransaction _ _ _).mp hu with rfl | ⟨hu, -⟩
    · exact .inr ⟨rfl, rfl⟩
    · exact h.transactions u hu
  · intro u hu
    rcases List.mem_append.mp hu with hu | hu
    · exact h.walletTransactions u hu
    · rw [List.mem_singleton.mp hu]
      exact .inr ⟨rfl, rfl⟩
  · exact List.nodup_upsert perm_placeTransaction _ h.nodupIds

/-- All outputs that were not known. -/
theorem Mirrors.foldl_addNewOutput {restored outputs : List OutputDataEntity} {s : RefreshState}
    (h : Mirrors db restored s) (houtputs : outputs ⊆ restored) :
    Mirrors db restored (outputs.foldl WalletRefresher.addNewOutput s) := by
  induction outputs generalizing s with
  | nil => exact h
  | cons output outputs ih =>
    rw [List.cons_subset] at houtputs
    exact ih (h.addNewOutput houtputs.1) houtputs.2

theorem getCommitment_updatedOutput {outputLocations : Commitment → Option UInt64}
    {o p : OutputDataEntity} (h : updatedOutput outputLocations o = some p) :
    p.getCommitment = o.getCommitment := by
  rw [updatedOutput] at h
  split at h <;> split at h <;> cases h <;> rfl

/-- The status that an output has after a refresh. -/
theorem status_updatedOutput {outputLocations : Commitment → Option UInt64}
    {o : OutputDataEntity}
    (h : o.status = .locked ∨ outputLocations o.getCommitment = none) :
    ((updatedOutput outputLocations o).getD o).status ≠ .spendable := by
  rw [updatedOutput]
  rcases h with hlocked | hnone
  · split <;> simp [hlocked]
  · rw [hnone]
    dsimp only
    split
    · next hstatus =>
      rcases hstatus with hstatus | hstatus | hstatus <;> simp [hstatus]
    · simp

/-- The refresh is done, and an output with this commitment was known or found, was not locked, and
is on the chain. -/
def Offered (db : WalletDB) (answers : RefreshAnswers) (c : Commitment) : Prop :=
  ¬answers.chainHeight < db.refreshBlockHeight ∧
    ∃ p ∈ db.outputs ++ findNewOutputs db.outputs answers.restoredOutputs,
    p.getCommitment = c ∧ p.status ≠ .locked ∧ answers.outputLocations c ≠ none

/-- An output in memory that ends up spendable is offered. -/
theorem Mirrors.offered {s : RefreshState} (hdone : ¬answers.chainHeight < db.refreshBlockHeight)
    (h : Mirrors db (findNewOutputs db.outputs answers.restoredOutputs) s) {q : OutputDataEntity}
    (hq : q ∈ s.walletOutputs)
    (hstatus : ((updatedOutput answers.outputLocations q).getD q).status = .spendable) :
    Offered db answers q.getCommitment := by
  obtain ⟨p, hp, hcommitment, hsame⟩ := h.walletOutputs q hq
  refine ⟨hdone, p, hp, hcommitment, ?_, ?_⟩
  · rw [hsame]
    rintro hlocked
    exact status_updatedOutput (.inl hlocked) hstatus
  · rintro hnone
    exact status_updatedOutput (.inr hnone) hstatus

theorem outputs_refreshTransactions (s : RefreshState) :
    (refreshTransactions s).outputs = s.db.outputs := by
  unfold refreshTransactions
  rw [WalletDB.foldl_addTransaction]

section Refresh

variable (hids : db.NodupIds)
include hids

/-- The state behind the unknown outputs. -/
theorem mirrors_refresh (answers : RefreshAnswers) :
    Mirrors db (findNewOutputs db.outputs answers.restoredOutputs)
      ((findNewOutputs db.outputs answers.restoredOutputs).foldl addNewOutput
        ⟨db, db.outputs, db.transactions⟩) :=
  (mirrors_start hids _).foldl_addNewOutput (List.Subset.refl _)

/-- **The outputs in memory after a refresh.** -/
theorem offered_of_mem_refresh {o : OutputDataEntity} (ho : o ∈ (refresh db answers).1)
    (hstatus : o.status = .spendable) : Offered db answers o.getCommitment := by
  rw [refresh] at ho
  split at ho
  · cases ho
  · next hdone =>
    obtain ⟨q, hq, rfl⟩ := List.mem_map.mp ho
    have hkeep : ((updatedOutput answers.outputLocations q).getD q).getCommitment =
        q.getCommitment := by
      rcases hupdated : updatedOutput answers.outputLocations q with _ | r
      · rfl
      · exact getCommitment_updatedOutput hupdated
    rw [hkeep]
    exact (mirrors_refresh hids answers).offered hdone hq hstatus

/-- **The rows of the outputs after a refresh.** -/
theorem offered_of_mem_outputs_refresh {o : OutputDataEntity}
    (ho : o ∈ (refresh db answers).2.outputs) (hstatus : o.status = .spendable) :
    o ∈ db.outputs ∨ Offered db answers o.getCommitment := by
  have h := mirrors_refresh hids answers
  rw [refresh] at ho
  split at ho
  · exact .inl ho
  · next hdone =>
    right
    rw [outputs_refreshTransactions] at ho
    rcases List.of_mem_upsertAll List.perm_placeLast ho with ho | ⟨ho, hkeep⟩
    -- The row was written: it is an output in memory, updated.
    · obtain ⟨r, hr, rfl⟩ := List.mem_map.mp ho
      obtain ⟨q, hq, hupdated⟩ := List.mem_filterMap.mp hr
      rw [OutputDataEntity.getCommitment_reload, getCommitment_updatedOutput hupdated]
      refine h.offered hdone hq ?_
      rw [hupdated]
      exact hstatus
    -- The row was kept: it is in memory, and was not updated there.
    · obtain ⟨q, hq, hcommitment, hsame⟩ := h.outputs o ho
      have hnone : updatedOutput answers.outputLocations q = none := by
        by_contra hsome
        obtain ⟨r, hr⟩ := Option.ne_none_iff_exists'.mp hsome
        refine hkeep (List.mem_map.mpr ⟨r.reload, List.mem_map_of_mem
          (List.mem_filterMap.mpr ⟨q, hq, hr⟩), ?_⟩)
        rw [OutputDataEntity.getCommitment_reload, getCommitment_updatedOutput hr, hcommitment]
      rw [← hcommitment]
      refine h.offered hdone hq ?_
      rw [hnone]
      exact hsame.trans hstatus

/-- **The transactions after a refresh**: the rows that were there, rows of transactions that were
confirmed, and rows without a slate. -/
theorem of_mem_transactions_refresh {u : WalletTx}
    (hu : u ∈ (refresh db answers).2.transactions) :
    u ∈ db.transactions ∨ ((u.type = .received ∨ u.type = .sent) ∧
      (u.slateIdOpt = none ∨
        ∃ t ∈ db.transactions, t.walletTxId = u.walletTxId ∧ t.slateIdOpt = u.slateIdOpt)) := by
  have h := mirrors_refresh hids answers
  have hmemory : ∀ t, (t ∈ db.transactions ∨ (t.type = .received ∧ t.slateIdOpt = none)) →
      (t.slateIdOpt = none ∨ ∃ t' ∈ db.transactions,
        t'.walletTxId = t.walletTxId ∧ t'.slateIdOpt = t.slateIdOpt) := by
    rintro t (ht | ⟨-, hnone⟩)
    · exact .inr ⟨t, ht, rfl, rfl⟩
    · exact .inl hnone
  rw [refresh] at hu
  split at hu
  · exact .inl hu
  · rcases WalletDB.of_mem_foldl_addTransaction hu with ⟨t, ht, rfl⟩ | hu
    · right
      rcases List.mem_append.mp ht with ht | ht
      -- The first loop: the transaction of an output.
      · obtain ⟨output, -, ht⟩ := List.mem_filterMap.mp ht
        obtain ⟨id, -, ht⟩ := Option.bind_eq_some_iff.mp ht
        obtain ⟨walletTx, hfind, ht⟩ := Option.bind_eq_some_iff.mp ht
        obtain ⟨height, -, ht⟩ := Option.bind_eq_some_iff.mp ht
        have hrow := hmemory _ (h.walletTransactions _ (List.mem_of_find?_eq_some hfind))
        dsimp only at ht
        split at ht
        · cases ht
          exact ⟨.inl rfl, hrow⟩
        · split at ht
          · cases ht
            exact ⟨.inr rfl, hrow⟩
          · cases ht
      -- The second loop: a finalized transaction whose change is spent.
      · obtain ⟨walletTx, hmem, ht⟩ := List.mem_filterMap.mp ht
        obtain ⟨transaction, -, ht⟩ := Option.bind_eq_some_iff.mp ht
        have hrow := hmemory _ (h.walletTransactions _ hmem)
        split at ht
        · obtain ⟨output, -, ht⟩ := Option.bind_eq_some_iff.mp ht
          split at ht
          · cases ht
            exact ⟨.inr rfl, hrow⟩
          · cases ht
        · cases ht
    · rcases h.transactions u hu with hu | ⟨htype, hnone⟩
      · exact .inl hu
      · exact .inr ⟨.inl htype, .inl hnone⟩

theorem nodupIds_refresh (answers : RefreshAnswers) : (refresh db answers).2.NodupIds := by
  have h := mirrors_refresh hids answers
  rw [refresh]
  split
  · exact hids
  · have houtputs : (refreshOutputs answers _).db.NodupIds := h.nodupIds
    exact houtputs.foldl_addTransaction _

end Refresh

end WalletRefresher

/-! ### Cancelling -/

/-- A row that a cancellation writes is spendable only as an input of the transaction. -/
theorem CancelTx.of_mem_getOutputsToUpdate {inputCommitments : List Commitment}
    {walletTx : WalletTx} {outputs outputsToUpdate : List OutputDataEntity}
    (h : getOutputsToUpdate inputCommitments walletTx outputs = .ok outputsToUpdate)
    {o : OutputDataEntity} (ho : o ∈ outputsToUpdate) (hstatus : o.status = .spendable) :
    o.getCommitment ∈ inputCommitments := by
  induction outputs generalizing outputsToUpdate with
  | nil =>
    cases h
    cases ho
  | cons output outputs ih =>
    rw [getOutputsToUpdate] at h
    obtain ⟨status, hwritten, h⟩ := Exec.of_bind_eq_ok h
    obtain ⟨rest, hrest, h⟩ := Exec.of_bind_eq_ok h
    cases h
    rcases List.mem_append.mp ho with ho | ho
    · obtain ⟨s, rfl, rfl⟩ : ∃ s, status = some s ∧ output.setStatus s = o := by
        simpa [Option.map_eq_some_iff] using ho
      split at hwritten
      · next hinput => exact hinput
      · split at hwritten
        -- An output of the transaction is cancelled, if anything.
        · unfold revokedStatus at hwritten
          split at hwritten <;> cases hwritten <;> cases hstatus
        · cases hwritten
    · exact ih hrest ho

/-- **What a cancellation did**: nothing, or the type of a row changed, and a row of an output that
was written is spendable only as an input of the transaction that was sent. -/
theorem cancelTx_eq_ok {db db' : WalletDB} {walletTxId : UInt32}
    (h : cancelTx db walletTxId = .ok db') :
    db' = db ∨ ∃ t ∈ db.transactions, ∃ type, CancelTx.canceledType t.type = some type ∧
      db'.transactions = (db.addTransaction (t.setType type)).transactions ∧
      ∀ o ∈ db'.outputs, o.status = .spendable → o ∈ db.outputs ∨
        (type = .sentCanceled ∧ o.getCommitment ∈ t.inputCommitments) := by
  rw [cancelTx] at h
  split at h
  · next t hfind =>
    right
    rw [CancelTx.cancelWalletTx] at h
    obtain ⟨type, htype, h⟩ := Exec.of_bind_eq_ok h
    obtain ⟨outputsToUpdate, hupdate, h⟩ := Exec.of_bind_eq_ok h
    cases h
    refine ⟨t, (WalletDB.of_getTransactionById hfind).1, type, orFail_eq_ok_iff.mp htype, rfl, ?_⟩
    intro o ho hstatus
    rcases List.of_mem_upsertAll List.perm_placeLast ho with ho | ⟨ho, -⟩
    · right
      obtain ⟨p, hp, rfl⟩ := List.mem_map.mp ho
      have hinput := CancelTx.of_mem_getOutputsToUpdate hupdate hp hstatus
      split at hinput
      · next hsent => exact ⟨hsent, hinput⟩
      · cases hinput
    · exact .inl ho
  · cases h
    exact .inl rfl

/-! ### All calls -/

section Calls

variable {G : Global} {C : Crypto} {W : WalletImpl G}

/-- **What a `Send` did**: it threw and kept at most the refresh, or it built a slate on coins that
the refresh found available. -/
theorem send_cases {db db' : WalletDB} {criteria : SendCriteria} {draws : SendDraws}
    {answers : SendAnswers} {result : Except WalletExc WalletResult}
    (h : send G C W db criteria draws answers = (result, db')) :
    ((∃ e, result = .error e) ∧ (db' = db ∨ db' = (WalletRefresher.refresh db answers.refresh).2)) ∨
      ∃ tipHeight slate inputs amountToSend fee n, result = .ok ⟨some slate, none, none⟩ ∧
        inputs.Subperm
          (availableCoins G W (WalletRefresher.refresh db answers.refresh).1 tipHeight) ∧
        SendSlateBuilder.build G C W (WalletRefresher.refresh db answers.refresh).2
          answers.chainHeight amountToSend fee n inputs criteria.addressOpt criteria.slateVersion
          draws = .ok (slate, db') := by
  rw [send] at h
  split at h
  · cases h
    exact .inl ⟨⟨_, rfl⟩, .inl rfl⟩
  · next tipHeight _ =>
    dsimp only at h
    split at h
    · next slate built hbuilt =>
      cases h
      rw [SendSlateBuilder.buildSendSlate] at hbuilt
      obtain ⟨⟨inputs, amountToSend, fee⟩, hplan, hbuilt⟩ := Exec.of_bind_eq_ok hbuilt
      exact .inr ⟨tipHeight, slate, inputs, amountToSend, fee, _, rfl,
        SendSlateBuilder.planSend_eq_ok hplan, hbuilt⟩
    · cases h
      exact .inl ⟨⟨_, rfl⟩, .inr rfl⟩

/-- The partial signature that a call returns and stores. -/
def WalletCall.signing (G : Global) (C : Crypto) (W : WalletImpl G) (db : WalletDB)
    (c : WalletCall) : Option PartialSigning :=
  (walletStep G C W db c).1.toOption.bind WalletResult.signingOpt

/-- **What a call can do**: the signature it gives, and the database it leaves. -/
inductive WalletStep (G : Global) (C : Crypto) (W : WalletImpl G) (db : WalletDB) :
    WalletCall → Option PartialSigning → WalletDB → Prop
  /-- It threw, or there was nothing to do. -/
  | unchanged (c : WalletCall) : WalletStep G C W db c none db
  /-- A `Send` threw behind its refresh. -/
  | refreshed (criteria : SendCriteria) (draws : SendDraws) (answers : SendAnswers)
      (htip : answers.tipHeightOpt ≠ none) :
      WalletStep G C W db (.send criteria draws answers) none
        (WalletRefresher.refresh db answers.refresh).2
  /-- A slate was built on coins that the refresh found available. -/
  | sent {criteria : SendCriteria} {draws : SendDraws} {answers : SendAnswers} {tipHeight : UInt64}
      {slate : Slate} {inputs : List OutputDataEntity} {amountToSend fee : UInt64} {n : UInt8}
      {db' : WalletDB} (htip : answers.tipHeightOpt ≠ none)
      (hinputs : inputs.Subperm
        (availableCoins G W (WalletRefresher.refresh db answers.refresh).1 tipHeight))
      (hbuild : SendSlateBuilder.build G C W (WalletRefresher.refresh db answers.refresh).2
        answers.chainHeight amountToSend fee n inputs criteria.addressOpt criteria.slateVersion
        draws = .ok (slate, db')) :
      WalletStep G C W db (.send criteria draws answers) none db'
  /-- A slate was received. -/
  | received {slate : Slate} {draws : ReceiveDraws} {r : SignedSlate}
      (hrun : ReceiveSlateBuilder.addReceiverData G C W db slate draws = .ok r) :
      WalletStep G C W db (.receive slate draws) (some r.signing) r.db
  /-- A slate was finalized. -/
  | finalized {slate : Slate} {chainHeight : UInt64} {r : FinalizedSlate}
      (hrun : FinalizeSlateBuilder.finalize G C W db slate chainHeight = .ok r) :
      WalletStep G C W db (.finalize slate chainHeight) (some r.signing) r.db
  /-- A transaction was cancelled. -/
  | canceled {walletTxId : UInt32} {db' : WalletDB} (hrun : cancelTx db walletTxId = .ok db') :
      WalletStep G C W db (.cancelTx walletTxId) none db'
  /-- The wallet was refreshed. -/
  | refresh (answers : RefreshAnswers) :
      WalletStep G C W db (.refresh answers) none (WalletRefresher.refresh db answers).2

/-- **Every call does one of these.** -/
theorem walletStep_spec (db : WalletDB) (c : WalletCall) :
    WalletStep G C W db c (c.signing G C W db) (walletStep G C W db c).2 := by
  rw [WalletCall.signing]
  cases c with
  | send criteria draws answers =>
    rw [walletStep]
    rcases htip : answers.tipHeightOpt with _ | tipHeight
    · rw [send, htip]
      exact .unchanged _
    · have htip' : answers.tipHeightOpt ≠ none := by simp [htip]
      rcases hsend : send G C W db criteria draws answers with ⟨result, db'⟩
      obtain ⟨⟨e, rfl⟩, rfl | rfl⟩ | ⟨_, slate, inputs, _, _, _, rfl, hinputs, hbuild⟩ :=
        send_cases hsend
      · exact .unchanged _
      · exact .refreshed criteria draws answers htip'
      · exact .sent htip' hinputs hbuild
  | receive slate draws =>
    rw [walletStep]
    rcases hrun : ReceiveSlateBuilder.addReceiverData G C W db slate draws with e | r
    · exact .unchanged _
    · exact .received hrun
  | finalize slate chainHeight =>
    rw [walletStep]
    rcases hrun : FinalizeSlateBuilder.finalize G C W db slate chainHeight with e | r
    · exact .unchanged _
    · exact .finalized hrun
  | cancelTx walletTxId =>
    rw [walletStep]
    rcases hrun : cancelTx db walletTxId with e | db'
    · exact .unchanged _
    · exact .canceled hrun
  | refresh answers => exact .refresh answers

theorem exists_walletStep (db : WalletDB) (c : WalletCall) :
    ∃ signing, WalletStep G C W db c signing (walletStep G C W db c).2 :=
  ⟨_, walletStep_spec db c⟩

end Calls

end GrinPlusPlus
