import GrinPlusPlus.Wallet.CallSpec
import GrinPlusPlus.Wallet.SmallWallet

/-!
# Coins in live transactions

A transaction that was sent is live until it is confirmed or cancelled. `Send` locks the coins it
takes, `CancelTx` releases them, and a refresh moves outputs and transactions along with the chain;
none of them looks at the whole. Whether a coin stays with one live transaction is therefore a
matter of the calls that come in between, and two of them get it wrong:

* `Finalize` takes a response to any transaction it finds for the slate, also to one that was
  cancelled and whose coins are with another transaction by then; and it takes every input that the
  response lists;
* a refresh makes every output spendable that it sees on the chain and that is not locked, also
  one that was marked as spent and is an input of a transaction that was not confirmed.

The condition on the calls (`GrinPlusPlus.WalletDB.Admits`) excludes these. Under it a coin is
committed to at most one live transaction, and a cancelled transaction stays cancelled
(`GrinPlusPlus.committedOnce_run`).
-/

namespace GrinPlusPlus

variable {G : Global} {C : Crypto} {W : WalletImpl G}

/-! ### The property -/

/-- A transaction that was sent and is neither confirmed nor cancelled. -/
def WalletTx.IsLive (t : WalletTx) : Prop :=
  t.type = .sendingStarted ∨ t.type = .sendingFinalized

/-- A transaction that was cancelled. -/
def WalletTx.IsCanceled (t : WalletTx) : Prop :=
  t.type = .sentCanceled ∨ t.type = .receivedCanceled

instance : DecidablePred WalletTx.IsLive := fun _ => inferInstanceAs (Decidable (_ ∨ _))

instance : DecidablePred WalletTx.IsCanceled := fun _ => inferInstanceAs (Decidable (_ ∨ _))

/-- **Coins are committed once**: no output of the wallet is an input of two live transactions, and
no input of a live transaction is spendable. -/
structure WalletDB.CommittedOnce (db : WalletDB) : Prop where
  /-- One transaction. -/
  once : ∀ o ∈ db.outputs, ∀ t ∈ db.transactions, ∀ u ∈ db.transactions, t.IsLive → u.IsLive →
    o.getCommitment ∈ t.inputCommitments → o.getCommitment ∈ u.inputCommitments → t = u
  /-- Not spendable. -/
  unspendable : ∀ o ∈ db.outputs, ∀ t ∈ db.transactions, t.IsLive →
    o.getCommitment ∈ t.inputCommitments → o.status ≠ .spendable

/-- No transaction that is cancelled in the first state is finalized in the second. A transaction
is told by its number and its slate. -/
def NeverRevived (db db' : WalletDB) : Prop :=
  ∀ t ∈ db.transactions, t.IsCanceled → ∀ u ∈ db'.transactions, u.walletTxId = t.walletTxId →
    u.slateIdOpt = t.slateIdOpt → u.type ≠ .sendingFinalized

section Runs

variable (G C W)

/-- The database behind some calls. -/
def WalletDB.run (db : WalletDB) (calls : List WalletCall) : WalletDB :=
  calls.foldl (fun db c => (walletStep G C W db c).2) db

end Runs

instance (db db' : WalletDB) : Decidable (NeverRevived db db') :=
  inferInstanceAs (Decidable (∀ t ∈ db.transactions, t.IsCanceled → ∀ u ∈ db'.transactions, _))

/-! ### The condition -/

namespace WalletDB

/-- The answers to a refresh do not offer an input of a live transaction. -/
def AdmitsRefresh (db : WalletDB) (answers : RefreshAnswers) : Prop :=
  ¬answers.chainHeight < db.refreshBlockHeight →
    ∀ p ∈ db.outputs ++ WalletRefresher.findNewOutputs db.outputs answers.restoredOutputs,
    p.status ≠ .locked → answers.outputLocations p.getCommitment ≠ none →
      ∀ t ∈ db.transactions, t.IsLive → p.getCommitment ∉ t.inputCommitments

/-- An input of a response that is not from the wallet is not spendable, and in no other live
transaction. -/
def ForeignInput (db : WalletDB) (walletTx : WalletTx) (c : Commitment) : Prop :=
  (∀ o ∈ db.outputs, o.getCommitment = c → o.status ≠ .spendable) ∧
    ∀ u ∈ db.transactions, u.IsLive → c ∈ u.inputCommitments → u.walletTxId = walletTx.walletTxId

/-- A response is to a live transaction; it lists no coin of the sender as an output, and no input
of others that is spendable or belongs to another live transaction. -/
structure AdmitsResponse (db : WalletDB) (slate : Slate) (walletTx : WalletTx)
    (context : SlateContextEntity) : Prop where
  /-- The transaction is live. -/
  live : walletTx.IsLive
  /-- The coins of the sender are inputs. -/
  coins : ∀ coin ∈ context.inputs,
    coin.getCommitment ∉ slate.getOutputs.map TransactionOutput.commitment ∧
      coin.getCommitment ∉ context.outputs.map OutputDataEntity.getCommitment
  /-- The other inputs are not from the wallet. -/
  foreign : ∀ c ∈ slate.getInputs.map TransactionInput.commitment,
    c ∉ context.inputs.map OutputDataEntity.getCommitment → db.ForeignInput walletTx c

/-- A response meets the condition, if there is a transaction and a context for it. -/
def AdmitsFinalize (db : WalletDB) (slate : Slate) : Prop :=
  ∀ t ∈ db.getTransactionBySlateId slate.slateId,
    ∀ context ∈ db.loadSlateContext slate.slateId, db.AdmitsResponse slate t context

/-- The calls that keep the coins. -/
def Admits (db : WalletDB) : WalletCall → Prop
  | .send _ _ answers => answers.tipHeightOpt ≠ none → db.AdmitsRefresh answers.refresh
  | .finalize slate _ => db.AdmitsFinalize slate
  | .refresh answers => db.AdmitsRefresh answers
  | .receive _ _ | .cancelTx _ => True

/-- Every call of a run meets the condition. -/
def AdmitsAll (G : Global) (C : Crypto) (W : WalletImpl G) : WalletDB → List WalletCall → Prop
  | _, [] => True
  | db, c :: calls => db.Admits c ∧ AdmitsAll G C W (walletStep G C W db c).2 calls

end WalletDB

section Decidable

variable (db : WalletDB)

instance (answers : RefreshAnswers) : Decidable (db.AdmitsRefresh answers) :=
  inferInstanceAs (Decidable (_ → _))

instance (walletTx : WalletTx) : DecidablePred (db.ForeignInput walletTx) :=
  fun _ => inferInstanceAs (Decidable (_ ∧ _))

instance (slate : Slate) (walletTx : WalletTx) (context : SlateContextEntity) :
    Decidable (db.AdmitsResponse slate walletTx context) :=
  decidable_of_iff
    (walletTx.IsLive ∧
      (∀ coin ∈ context.inputs,
        coin.getCommitment ∉ slate.getOutputs.map TransactionOutput.commitment ∧
          coin.getCommitment ∉ context.outputs.map OutputDataEntity.getCommitment) ∧
      ∀ c ∈ slate.getInputs.map TransactionInput.commitment,
        c ∉ context.inputs.map OutputDataEntity.getCommitment → db.ForeignInput walletTx c)
    ⟨fun h => ⟨h.1, h.2.1, h.2.2⟩, fun h => ⟨h.live, h.coins, h.foreign⟩⟩

instance (slate : Slate) : Decidable (db.AdmitsFinalize slate) :=
  inferInstanceAs (Decidable (∀ t ∈ db.getTransactionBySlateId slate.slateId, _))

instance WalletDB.decidableAdmits : DecidablePred db.Admits
  | .send _ _ _ => inferInstanceAs (Decidable (_ → _))
  | .finalize slate _ => inferInstanceAs (Decidable (db.AdmitsFinalize slate))
  | .refresh answers => inferInstanceAs (Decidable (db.AdmitsRefresh answers))
  | .receive _ _ | .cancelTx _ => isTrue trivial

end Decidable

/-- The condition can be checked. -/
instance WalletDB.decidableAdmitsAll :
    (db : WalletDB) → (calls : List WalletCall) → Decidable (db.AdmitsAll G C W calls)
  | _, [] => isTrue trivial
  | db, c :: calls =>
    have := decidableAdmitsAll (walletStep G C W db c).2 calls
    inferInstanceAs (Decidable (_ ∧ _))

/-- The identifier that a `Send` draws. -/
def WalletCall.drawnSlateId : WalletCall → Option SlateId
  | .send _ draws _ => some draws.slateId
  | _ => none

/-- The identifier that a `Receive` is given. -/
def WalletCall.receivedSlateId : WalletCall → Option SlateId
  | .receive slate _ => some slate.slateId
  | _ => none

/-- No identifier comes in before it is drawn. -/
def DrawsFreshIds (calls : List WalletCall) : Prop :=
  calls.Pairwise fun a b => ∀ x ∈ a.receivedSlateId, ∀ y ∈ b.drawnSlateId, x ≠ y

instance (calls : List WalletCall) : Decidable (DrawsFreshIds calls) :=
  inferInstanceAs (Decidable (calls.Pairwise fun a b =>
    ∀ x ∈ a.receivedSlateId, ∀ y ∈ b.drawnSlateId, x ≠ y))

/-! ### The invariant -/

/-- What every admitted run keeps. -/
structure CoinsKept (db : WalletDB) : Prop where
  /-- The numbers of the transactions are different. -/
  nodupIds : db.NodupIds
  /-- No two live transactions have a common input. -/
  exclusive : List.Exclusive WalletTx.walletTxId WalletTx.IsLive WalletTx.inputCommitments
    db.transactions
  /-- No input of a live transaction is spendable. -/
  unspendable : ∀ o ∈ db.outputs, ∀ t ∈ db.transactions, t.IsLive →
    o.getCommitment ∈ t.inputCommitments → o.status ≠ .spendable
  /-- A live transaction spends the coins of its context. -/
  contexts : ∀ t ∈ db.transactions, t.IsLive → ∃ slateId context, t.slateIdOpt = some slateId ∧
    db.loadSlateContext slateId = some context ∧
      ∀ coin ∈ context.inputs, coin.getCommitment ∈ t.inputCommitments

theorem mem_inputCommitments_iff {t : WalletTx} {inputs : List TransactionInput}
    {outputs : List TransactionOutput} {kernel : TransactionKernel} {offset : BlindingFactor}
    (h : t.transactionOpt = some (buildTransaction G W inputs outputs kernel offset))
    (c : Commitment) :
    c ∈ t.inputCommitments ↔ c ∈ inputs.map TransactionInput.commitment := by
  rw [WalletTx.inputCommitments, h]
  have hperm : (W.bodySort.inputs (W.bodySort.inputs inputs)).Perm inputs :=
    (W.bodySort.sorts_inputs.perm _).trans (W.bodySort.sorts_inputs.perm _)
  exact (hperm.map _).mem_iff

/-- A row that is cancelled is not live. -/
theorem not_isLive_canceled {t : WalletTx} {type : EWalletTxType}
    (h : CancelTx.canceledType t.type = some type) : ¬(t.setType type).reload.IsLive := by
  unfold CancelTx.canceledType at h
  split at h <;> cases h <;> rintro (hl | hl) <;> cases hl

namespace CoinsKept

variable {db db' : WalletDB}

theorem empty : CoinsKept WalletDB.empty where
  nodupIds := List.nodup_nil
  exclusive _ h := absurd h List.not_mem_nil
  unspendable _ h := absurd h List.not_mem_nil
  contexts _ h := absurd h List.not_mem_nil

/-- The invariant gives the property. -/
theorem committedOnce (h : CoinsKept db) : db.CommittedOnce where
  once _ _ t ht u hu hlt hlu hct hcu :=
    List.inj_on_of_nodup_map h.nodupIds ht hu (h.exclusive t ht u hu hlt hlu _ hct hcu)
  unspendable := h.unspendable

/-- **Live transactions only become fewer**, and no input of one that is left becomes spendable. -/
theorem mono (h : CoinsKept db) (hids : db'.NodupIds)
    (hlive : ∀ t ∈ db'.transactions, t.IsLive → t ∈ db.transactions)
    (houtputs : ∀ o ∈ db'.outputs, o.status = .spendable → o ∈ db.outputs ∨
      ∀ t ∈ db'.transactions, t.IsLive → o.getCommitment ∉ t.inputCommitments)
    (hcontexts : db'.slateContexts = db.slateContexts) : CoinsKept db' where
  nodupIds := hids
  exclusive := h.exclusive.mono hlive
  unspendable := by
    intro o ho t ht hl hc hstatus
    rcases houtputs o ho hstatus with hold | hfree
    · exact h.unspendable o hold t (hlive t ht hl) hl hc hstatus
    · exact hfree t ht hl hc
  contexts := by
    intro t ht hl
    rw [show db'.loadSlateContext = db.loadSlateContext from by
      funext slateId
      rw [WalletDB.loadSlateContext, WalletDB.loadSlateContext, hcontexts]]
    exact h.contexts t (hlive t ht hl) hl

/-- A refresh makes no transaction live. -/
theorem live_of_refresh (h : CoinsKept db) (answers : RefreshAnswers) :
    ∀ t ∈ (WalletRefresher.refresh db answers).2.transactions, t.IsLive →
      t ∈ db.transactions := by
  intro t ht hl
  rcases WalletRefresher.of_mem_transactions_refresh h.nodupIds ht with ht | ⟨htype, -⟩
  · exact ht
  · rcases hl with hl | hl <;> rcases htype with htype | htype <;> simp [htype] at hl

/-- **A refresh** that offers no input of a live transaction. -/
theorem refresh (h : CoinsKept db) {answers : RefreshAnswers} (hadmits : db.AdmitsRefresh answers) :
    CoinsKept (WalletRefresher.refresh db answers).2 := by
  have hlive := h.live_of_refresh answers
  refine h.mono (WalletRefresher.nodupIds_refresh h.nodupIds answers) hlive ?_
    (sameSlates_refresh db answers).slateContexts
  intro o ho hstatus
  rcases WalletRefresher.offered_of_mem_outputs_refresh h.nodupIds ho hstatus with
    hold | ⟨hdone, p, hp, hcommitment, hlocked, hlocation⟩
  · exact .inl hold
  · right
    intro t ht hl
    rw [← hcommitment] at hlocation ⊢
    exact hadmits hdone p hp hlocked hlocation t (hlive t ht hl) hl

/-- The coins that are available behind a refresh are in no live transaction. -/
theorem free_of_available (h : CoinsKept db) {answers : RefreshAnswers}
    (hadmits : db.AdmitsRefresh answers) {tipHeight : UInt64} {coin : OutputDataEntity}
    (hcoin : coin ∈ availableCoins G W (WalletRefresher.refresh db answers).1 tipHeight) :
    ∀ t ∈ (WalletRefresher.refresh db answers).2.transactions, t.IsLive →
      coin.getCommitment ∉ t.inputCommitments := by
  intro t ht hl
  obtain ⟨hmem, hstatus, -⟩ := by simpa [availableCoins] using hcoin
  obtain ⟨hdone, p, hp, hcommitment, hlocked, hlocation⟩ :=
    WalletRefresher.offered_of_mem_refresh h.nodupIds hmem hstatus
  rw [← hcommitment] at hlocation ⊢
  exact hadmits hdone p hp hlocked hlocation t (h.live_of_refresh answers t ht hl) hl

/-- **A live row is written**: its inputs are in no other live transaction and not spendable. -/
theorem write (h : CoinsKept db) {t : WalletTx}
    (htransactions : db'.transactions =
      List.upsert WalletTx.walletTxId placeTransaction t db.transactions)
    (houtputs : ∀ o ∈ db'.outputs, o.status = .spendable →
      o ∈ db.outputs ∧ o.getCommitment ∉ t.inputCommitments)
    (hcontexts : ∀ slateId context, db.loadSlateContext slateId = some context →
      db'.loadSlateContext slateId = some context)
    (hcontext : ∃ slateId context, t.slateIdOpt = some slateId ∧
      db'.loadSlateContext slateId = some context ∧
        ∀ coin ∈ context.inputs, coin.getCommitment ∈ t.inputCommitments)
    (hfree : ∀ u ∈ db.transactions, u.IsLive → u.walletTxId ≠ t.walletTxId →
      ∀ c ∈ t.inputCommitments, c ∉ u.inputCommitments) : CoinsKept db' := by
  have hrows : ∀ u ∈ db'.transactions, u = t ∨ u ∈ db.transactions := by
    intro u hu
    rw [htransactions, List.mem_upsert_iff perm_placeTransaction] at hu
    exact hu.imp_right And.left
  constructor
  · rw [WalletDB.NodupIds, htransactions]
    exact List.nodup_upsert perm_placeTransaction _ h.nodupIds
  · rw [htransactions]
    exact h.exclusive.upsert perm_placeTransaction fun _ => hfree
  · intro o ho u hu hl hc hstatus
    obtain ⟨hold, hnot⟩ := houtputs o ho hstatus
    rcases hrows u hu with rfl | hu
    · exact hnot hc
    · exact h.unspendable o hold u hu hl hc hstatus
  · intro u hu hl
    rcases hrows u hu with rfl | hu
    · exact hcontext
    · obtain ⟨slateId, context, hslateId, hload, hcoins⟩ := h.contexts u hu hl
      exact ⟨slateId, context, hslateId, hcontexts slateId context hload, hcoins⟩

/-- **A slate is sent** on coins that are in no live transaction. -/
theorem send (h : CoinsKept db) {chainHeight amountToSend fee : UInt64} {n : UInt8}
    {inputs : List OutputDataEntity} {addressOpt : Option Ed25519PublicKey}
    {slateVersion : UInt16} {draws : SendDraws} {slate : Slate}
    (hbuild : SendSlateBuilder.build G C W db chainHeight amountToSend fee n inputs addressOpt
      slateVersion draws = .ok (slate, db'))
    (hfree : ∀ coin ∈ inputs, ∀ t ∈ db.transactions, t.IsLive →
      coin.getCommitment ∉ t.inputCommitments) : CoinsKept db' := by
  obtain ⟨changeOutputs, keys, _, _, hchange, -, hslate, hnew, -, -, rfl⟩ :=
    SendSlateBuilder.build_eq_ok hbuild
  have hinputs : ∀ c, c ∈ (SendSlateBuilder.buildWalletTx G W db.nextTxId draws.transactionOffset
      inputs changeOutputs slate).reload.inputCommitments ↔
        c ∈ inputs.map OutputDataEntity.getCommitment := by
    intro c
    rw [mem_inputCommitments_iff rfl, List.map_map]
    rfl
  have hslateId : slate.slateId = draws.slateId := by
    rw [hslate, addCoins_eq]
    rfl
  apply h.write (t := (SendSlateBuilder.buildWalletTx G W db.nextTxId
    draws.transactionOffset inputs changeOutputs slate).reload)
  · rfl
  · intro o ho hstatus
    rcases List.of_mem_upsertAll List.perm_placeLast ho with ho | ⟨ho, hkey⟩
    -- A coin that was taken is locked.
    · simp only [List.mem_map] at ho
      obtain ⟨_, ⟨coin, -, rfl⟩, rfl⟩ := ho
      cases hstatus
    · rw [hinputs]
      have hcoin : o.getCommitment ∉ inputs.map OutputDataEntity.getCommitment := by
        simpa using hkey
      rcases List.of_mem_upsertAll List.perm_placeLast ho with ho | ⟨ho, -⟩
      -- The change has no confirmations.
      · obtain ⟨p, hp, rfl⟩ := List.mem_map.mp ho
        obtain ⟨path, hcreated⟩ := hchange.created p hp
        exact absurd ((status_of_createBlindedOutput hcreated).symm.trans hstatus) (by simp)
      · exact ⟨ho, hcoin⟩
  · intro slateId context hload
    exact WalletDB.loadSlateContext_of_append rfl hload
  · refine ⟨draws.slateId, _, congrArg some hslateId,
      WalletDB.loadSlateContext_of_new rfl hnew, ?_⟩
    intro coin hcoin
    obtain ⟨p, hp, rfl⟩ := List.mem_map.mp hcoin
    exact (hinputs _).mpr (List.mem_map.mpr ⟨p, hp, rfl⟩)
  · intro u hu hl _ c hc
    obtain ⟨coin, hcoin, rfl⟩ := List.mem_map.mp ((hinputs c).mp hc)
    exact hfree coin hcoin u hu hl

/-- **A slate is finalized** by an admitted response. -/
theorem finalize (h : CoinsKept db) {rcvSlate : Slate} {chainHeight : UInt64} {r : FinalizedSlate}
    (hadmits : db.AdmitsFinalize rcvSlate)
    (hrun : FinalizeSlateBuilder.finalize G C W db rcvSlate chainHeight = .ok r) :
    CoinsKept r.db := by
  obtain ⟨sendSlate, walletTx, context, hspec⟩ := FinalizeSlateBuilder.finalize_eq_ok hrun
  obtain ⟨hlive, hcoins, hforeign⟩ := hadmits walletTx hspec.findTx context hspec.loadContext
  obtain ⟨hmem, hslateId⟩ := WalletDB.of_getTransactionBySlateId hspec.findTx
  -- The live row of this slate spends the coins of the context, before and after.
  obtain ⟨slateId, context', hslateId', hload, hcontext⟩ := h.contexts walletTx hmem hlive
  obtain rfl : rcvSlate.slateId = slateId := Option.some.inj (hslateId.symm.trans hslateId')
  obtain rfl : context = context' := Option.some.inj (hspec.loadContext.symm.trans hload)
  have hspends : ∀ c, r.slate.Spends c ↔
      (addCoins context.inputs context.outputs rcvSlate).Spends c := by
    intro c
    rw [Slate.Spends, Slate.Spends, hspec.commitments]
  obtain ⟨kernel, htransaction⟩ := hspec.transaction
  have hinputs : ∀ c, c ∈ ((walletTx.setType .sendingFinalized).setTransaction
      r.transaction).reload.inputCommitments ↔ r.slate.Spends c := by
    intro c
    rw [mem_inputCommitments_iff (congrArg some htransaction), Slate.mem_getInputs_iff]
  have hof : ∀ c, r.slate.Spends c →
      c ∈ context.inputs.map OutputDataEntity.getCommitment ∨
        (c ∈ rcvSlate.getInputs.map TransactionInput.commitment ∧
          c ∉ context.inputs.map OutputDataEntity.getCommitment) := by
    intro c hc
    rw [Slate.mem_getInputs_iff]
    by_cases hmine : c ∈ context.inputs.map OutputDataEntity.getCommitment
    · exact .inl hmine
    · exact .inr ⟨(of_spends_addCoins _ _ _ ((hspends c).mp hc)).resolve_right hmine, hmine⟩
  rw [hspec.db]
  apply h.write (t := ((walletTx.setType .sendingFinalized).setTransaction
    r.transaction).reload)
  · rfl
  · intro o ho hstatus
    refine ⟨ho, ?_⟩
    rw [hinputs]
    rintro hc
    rcases hof _ hc with hmine | ⟨hlisted, hnot⟩
    · obtain ⟨coin, hcoin, heq⟩ := List.mem_map.mp hmine
      exact h.unspendable o ho walletTx hmem hlive (heq ▸ hcontext coin hcoin) hstatus
    · exact (hforeign _ hlisted hnot).1 o ho rfl hstatus
  · exact fun _ _ hload => hload
  · refine ⟨rcvSlate.slateId, context, hslateId, hload, ?_⟩
    intro coin hcoin
    rw [hinputs, hspends]
    obtain ⟨hnotListed, hnotChange⟩ := hcoins coin hcoin
    rw [Slate.mem_getOutputs_iff] at hnotListed
    exact spends_addCoins _ _ _ (.inr ⟨List.mem_map_of_mem hcoin, hnotListed⟩) hnotChange
  · intro u hu hl hne c hc hcu
    rcases hof c ((hinputs c).mp hc) with hmine | ⟨hlisted, hnot⟩
    · obtain ⟨coin, hcoin, rfl⟩ := List.mem_map.mp hmine
      exact hne (h.exclusive u hu walletTx hmem hl hlive _ hcu (hcontext coin hcoin))
    · exact hne ((hforeign c hlisted hnot).2 u hu hl hcu)

/-- **A slate is received.** -/
theorem receive (h : CoinsKept db) {sendSlate : Slate} {draws : ReceiveDraws} {r : SignedSlate}
    (hrun : ReceiveSlateBuilder.addReceiverData G C W db sendSlate draws = .ok r) :
    CoinsKept r.db := by
  obtain ⟨outputData, keys, houtput, -, -, -, -, hdb⟩ :=
    ReceiveSlateBuilder.addReceiverData_eq_ok hrun
  rw [hdb]
  apply h.mono
  · exact List.nodup_upsert perm_placeTransaction _ h.nodupIds
  · intro t ht hl
    rcases (List.mem_upsert_iff perm_placeTransaction _ _ _).mp ht with rfl | ⟨ht, -⟩
    · rcases hl with hl | hl <;> cases hl
    · exact ht
  · intro o ho hstatus
    rcases List.of_mem_upsertAll List.perm_placeLast ho with ho | ⟨ho, -⟩
    · obtain ⟨p, hp, rfl⟩ := List.mem_map.mp ho
      rw [List.mem_singleton.mp hp] at hstatus
      exact absurd ((status_of_createBlindedOutput houtput).symm.trans hstatus) (by simp)
    · exact .inl ho
  · rfl

/-- **A transaction is cancelled**: its coins were in no other live transaction. -/
theorem cancelTx (h : CoinsKept db) {walletTxId : UInt32}
    (hrun : GrinPlusPlus.cancelTx db walletTxId = .ok db') : CoinsKept db' := by
  rcases cancelTx_eq_ok hrun with rfl | ⟨t, ht, type, htype, htransactions, houtputs⟩
  · exact h
  have hdead := not_isLive_canceled htype
  have hrows : ∀ u ∈ db'.transactions, u.IsLive →
      u ∈ db.transactions ∧ u.walletTxId ≠ t.walletTxId := by
    intro u hu hl
    rw [htransactions] at hu
    rcases (List.mem_upsert_iff perm_placeTransaction _ _ _).mp hu with rfl | hu
    · exact absurd hl hdead
    · exact hu
  apply h.mono
  · rw [WalletDB.NodupIds, htransactions]
    exact List.nodup_upsert perm_placeTransaction _ h.nodupIds
  · exact fun u hu hl => (hrows u hu hl).1
  · intro o ho hstatus
    refine (houtputs o ho hstatus).imp_right ?_
    rintro ⟨rfl, hinput⟩ u hu hl hcu
    have hlive : t.IsLive := by
      unfold CancelTx.canceledType at htype
      split at htype
      · cases htype
      · next hstarted => exact .inl hstarted
      · next hfinalized => exact .inr hfinalized
      · cases htype
    obtain ⟨hu, hne⟩ := hrows u hu hl
    exact hne (h.exclusive u hu t ht hl hlive _ hcu hinput)
  · exact (sameSlates_cancelTx hrun).slateContexts

/-- **One call.** -/
theorem step (h : CoinsKept db) {c : WalletCall} (hadmits : db.Admits c) :
    CoinsKept (walletStep G C W db c).2 := by
  obtain ⟨signing, hstep⟩ := exists_walletStep (G := G) (C := C) (W := W) db c
  generalize (walletStep G C W db c).2 = db' at hstep ⊢
  cases hstep with
  | unchanged => exact h
  | refreshed criteria draws answers htip => exact h.refresh (hadmits htip)
  | sent htip hinputs hbuild =>
    refine (h.refresh (hadmits htip)).send hbuild ?_
    intro coin hcoin
    exact h.free_of_available (hadmits htip) (hinputs.subset hcoin)
  | received hrun => exact h.receive hrun
  | finalized hrun => exact h.finalize hadmits hrun
  | canceled hrun => exact h.cancelTx hrun
  | refresh answers => exact h.refresh hadmits

/-- **A run**, by one call after the other. -/
theorem run (h : CoinsKept db) {calls : List WalletCall} (hadmits : db.AdmitsAll G C W calls) :
    CoinsKept (db.run G C W calls) := by
  induction calls generalizing db with
  | nil => exact h
  | cons c calls ih => exact ih (h.step hadmits.1) hadmits.2

end CoinsKept

theorem WalletDB.admitsAll_append {db : WalletDB} {before after : List WalletCall} :
    db.AdmitsAll G C W (before ++ after) ↔
      db.AdmitsAll G C W before ∧ (db.run G C W before).AdmitsAll G C W after := by
  induction before generalizing db with
  | nil => exact ⟨fun h => ⟨trivial, h⟩, And.right⟩
  | cons c before ih =>
    rw [List.cons_append, AdmitsAll, AdmitsAll, ih, and_assoc]
    rfl

/-! ### Where the rows come from -/

/-- A call adds contexts, if anything. -/
theorem contexts_step (db : WalletDB) (c : WalletCall) :
    db.slateContexts ⊆ (walletStep G C W db c).2.slateContexts := by
  obtain ⟨signing, hstep⟩ := exists_walletStep (G := G) (C := C) (W := W) db c
  generalize (walletStep G C W db c).2 = db' at hstep ⊢
  have hsame : ∀ {db'}, SameSlates db db' → db.slateContexts ⊆ db'.slateContexts := by
    intro db' hsame
    rw [hsame.slateContexts]
    exact List.Subset.refl _
  cases hstep with
  | unchanged => exact List.Subset.refl _
  | refreshed criteria draws answers => exact hsame (sameSlates_refresh db answers.refresh)
  | sent htip hinputs hbuild =>
    obtain ⟨_, _, _, _, -, -, -, -, -, -, rfl⟩ := SendSlateBuilder.build_eq_ok hbuild
    exact List.Subset.trans (hsame (sameSlates_refresh db _)) (List.subset_append_left _ _)
  | received hrun =>
    obtain ⟨_, _, -, -, -, -, -, hdb⟩ := ReceiveSlateBuilder.addReceiverData_eq_ok hrun
    rw [hdb]
    exact List.Subset.refl _
  | finalized hrun =>
    obtain ⟨_, _, _, hspec⟩ := FinalizeSlateBuilder.finalize_eq_ok hrun
    rw [hspec.db]
    exact List.Subset.refl _
  | canceled hrun => exact hsame (sameSlates_cancelTx hrun)
  | refresh answers => exact hsame (sameSlates_refresh db answers)

/-- A row of a transaction that was there, live only if that was. -/
def OfKnown (db : WalletDB) (u : WalletTx) : Prop :=
  ∃ t ∈ db.transactions, t.walletTxId = u.walletTxId ∧ t.slateIdOpt = u.slateIdOpt ∧
    (u.IsLive → t.IsLive)

theorem ofKnown_of_mem {db : WalletDB} {u : WalletTx} (h : u ∈ db.transactions) : OfKnown db u :=
  ⟨u, h, rfl, rfl, id⟩

/-- The rows behind a refresh. -/
theorem ofKnown_refresh {db : WalletDB} (h : db.NodupIds) {answers : RefreshAnswers} {u : WalletTx}
    (hu : u ∈ (WalletRefresher.refresh db answers).2.transactions) :
    OfKnown db u ∨ (¬u.IsLive ∧ u.slateIdOpt = none) := by
  rcases WalletRefresher.of_mem_transactions_refresh h hu with hu | ⟨htype, hrow⟩
  · exact .inl (ofKnown_of_mem hu)
  · have hdead : ¬u.IsLive := by
      rintro (hl | hl) <;> rcases htype with htype | htype <;> simp [htype] at hl
    rcases hrow with hnone | ⟨t, ht, hid, hslate⟩
    · exact .inr ⟨hdead, hnone⟩
    · exact .inl ⟨t, ht, hid, hslate, fun hl => absurd hl hdead⟩

/-- **Where a row comes from**: it is of a transaction that was there; or it is not live, and its
slate was received, if it has one; or it was sent, with a slate that has a context from now on. -/
theorem of_mem_transactions_step {db : WalletDB} (h : CoinsKept db) {c : WalletCall}
    (hadmits : db.Admits c) {u : WalletTx} (hu : u ∈ (walletStep G C W db c).2.transactions) :
    OfKnown db u ∨ (¬u.IsLive ∧ ∀ x ∈ u.slateIdOpt, x ∈ c.receivedSlateId) ∨
      ∃ x ∈ c.drawnSlateId, u.slateIdOpt = some x ∧ x ∉ db.slateContexts.map Prod.fst ∧
        x ∈ (walletStep G C W db c).2.slateContexts.map Prod.fst := by
  obtain ⟨signing, hstep⟩ := exists_walletStep (G := G) (C := C) (W := W) db c
  generalize (walletStep G C W db c).2 = db' at hstep hu ⊢
  have hrefreshed : ∀ {answers}, u ∈ (WalletRefresher.refresh db answers).2.transactions →
      OfKnown db u ∨ (¬u.IsLive ∧ ∀ x ∈ u.slateIdOpt, x ∈ c.receivedSlateId) := by
    intro answers hu
    refine (ofKnown_refresh h.nodupIds hu).imp_right ?_
    rintro ⟨hdead, hnone⟩
    refine ⟨hdead, ?_⟩
    rw [hnone]
    rintro x ⟨⟩
  cases hstep with
  | unchanged => exact .inl (ofKnown_of_mem hu)
  | refreshed criteria draws answers => exact (hrefreshed hu).imp_right .inl
  | @sent criteria draws answers _ slate _ _ _ _ _ htip hinputs hbuild =>
    obtain ⟨changeOutputs, keys, _, _, -, -, hslate, hnew, -, -, rfl⟩ :=
      SendSlateBuilder.build_eq_ok hbuild
    rcases (List.mem_upsert_iff perm_placeTransaction _ _ _).mp hu with rfl | ⟨hu, -⟩
    · refine .inr (.inr ⟨draws.slateId, rfl, ?_, ?_, ?_⟩)
      · rw [hslate, addCoins_eq]
        rfl
      · rwa [← (sameSlates_refresh db answers.refresh).slateContexts]
      · simp
    · exact (hrefreshed hu).imp_right .inl
  | @received slate draws r hrun =>
    obtain ⟨outputData, keys, -, -, -, hslateId, -, hdb⟩ :=
      ReceiveSlateBuilder.addReceiverData_eq_ok hrun
    rw [hdb] at hu
    rcases (List.mem_upsert_iff perm_placeTransaction _ _ _).mp hu with rfl | ⟨hu, -⟩
    · refine .inr (.inl ⟨?_, ?_⟩)
      · rintro (hl | hl) <;> cases hl
      · rintro x ⟨⟩
        exact congrArg some hslateId.symm
    · exact .inl (ofKnown_of_mem hu)
  | @finalized slate chainHeight r hrun =>
    obtain ⟨sendSlate, walletTx, context, hspec⟩ := FinalizeSlateBuilder.finalize_eq_ok hrun
    obtain ⟨hlive, -⟩ := hadmits walletTx hspec.findTx context hspec.loadContext
    rw [hspec.db] at hu
    rcases (List.mem_upsert_iff perm_placeTransaction _ _ _).mp hu with rfl | ⟨hu, -⟩
    · exact .inl ⟨walletTx, (WalletDB.of_getTransactionBySlateId hspec.findTx).1, rfl, rfl,
        fun _ => hlive⟩
    · exact .inl (ofKnown_of_mem hu)
  | canceled hrun =>
    rcases cancelTx_eq_ok hrun with rfl | ⟨t, ht, type, htype, htransactions, -⟩
    · exact .inl (ofKnown_of_mem hu)
    · rw [htransactions] at hu
      rcases (List.mem_upsert_iff perm_placeTransaction _ _ _).mp hu with rfl | ⟨hu, -⟩
      · exact .inl ⟨t, ht, rfl, rfl, fun hl => absurd hl (not_isLive_canceled htype)⟩
      · exact .inl (ofKnown_of_mem hu)
  | refresh answers => exact (hrefreshed hu).imp_right .inl

/-! ### A cancelled transaction stays cancelled -/

/-- The slates of the transactions have a context, or came in. -/
def SlatesKnown (received : List SlateId) (db : WalletDB) : Prop :=
  ∀ t ∈ db.transactions, ∀ x ∈ t.slateIdOpt,
    x ∈ db.slateContexts.map Prod.fst ∨ x ∈ received

/-- One call. -/
theorem SlatesKnown.step {received : List SlateId} {db : WalletDB} (h : SlatesKnown received db)
    (hkept : CoinsKept db) {c : WalletCall} (hadmits : db.Admits c) :
    SlatesKnown (received ++ c.receivedSlateId.toList) (walletStep G C W db c).2 := by
  intro u hu x hx
  rcases of_mem_transactions_step hkept hadmits hu with
    ⟨t, ht, -, hslate, -⟩ | ⟨-, hreceived⟩ | ⟨y, -, hslate, -, hcontext⟩
  · rw [← hslate] at hx
    rcases h t ht x hx with hx | hx
    · exact .inl ((List.map_subset _ (contexts_step db c)) hx)
    · exact .inr (List.mem_append_left _ hx)
  · exact .inr (List.mem_append_right _ (by simpa using hreceived x hx))
  · rw [hslate] at hx
    cases hx
    exact .inl hcontext

/-- A run. -/
theorem SlatesKnown.run {received : List SlateId} {db : WalletDB} (h : SlatesKnown received db)
    (hkept : CoinsKept db) {calls : List WalletCall} (hadmits : db.AdmitsAll G C W calls) :
    SlatesKnown (received ++ calls.filterMap WalletCall.receivedSlateId) (db.run G C W calls) := by
  induction calls generalizing received db with
  | nil =>
    rw [List.filterMap_nil, List.append_nil]
    exact h
  | cons c calls ih =>
    have hrest := ih (h.step hkept hadmits.1) (hkept.step hadmits.1) hadmits.2
    have hcons : (c :: calls).filterMap WalletCall.receivedSlateId =
        c.receivedSlateId.toList ++ calls.filterMap WalletCall.receivedSlateId := by
      rw [List.filterMap_cons]
      cases c.receivedSlateId <;> rfl
    rw [hcons, ← List.append_assoc]
    exact hrest

/-- No row with this number and this slate is live. -/
def Dead (walletTxId : UInt32) (slateIdOpt : Option SlateId) (db : WalletDB) : Prop :=
  ∀ u ∈ db.transactions, u.walletTxId = walletTxId → u.slateIdOpt = slateIdOpt → ¬u.IsLive

/-- **What is dead stays dead**, as long as no `Send` draws its slate again. -/
theorem Dead.run {walletTxId : UInt32} {slateIdOpt : Option SlateId} {db : WalletDB}
    (h : Dead walletTxId slateIdOpt db) (hkept : CoinsKept db) {calls : List WalletCall}
    (hadmits : db.AdmitsAll G C W calls)
    (hfresh : ∀ x ∈ slateIdOpt, x ∈ db.slateContexts.map Prod.fst ∨
      ∀ c ∈ calls, ∀ y ∈ c.drawnSlateId, x ≠ y) :
    Dead walletTxId slateIdOpt (db.run G C W calls) := by
  induction calls generalizing db with
  | nil => exact h
  | cons c calls ih =>
    refine ih ?_ (hkept.step hadmits.1) hadmits.2 ?_
    · intro u hu hid hslate hl
      rcases of_mem_transactions_step hkept hadmits.1 hu with
        ⟨t, ht, hid', hslate', hlive⟩ | ⟨hdead, -⟩ | ⟨y, hy, hslate', hnew, -⟩
      · exact h t ht (hid'.trans hid) (hslate'.trans hslate) (hlive hl)
      · exact hdead hl
      · rcases hfresh y (hslate.symm.trans hslate') with hold | hother
        · exact hnew hold
        · exact hother c (List.mem_cons_self ..) y hy rfl
    · intro x hx
      refine (hfresh x hx).imp ?_ ?_
      · exact fun hold => (List.map_subset _ (contexts_step db c)) hold
      · exact fun hother d hd => hother d (List.mem_cons_of_mem _ hd)

/-! ### The result -/

/-- **A coin is committed to at most one live transaction**, behind every run whose calls meet the
condition, and what is cancelled on the way is not finalized later. -/
theorem committedOnce_run (before after : List WalletCall)
    (hids : DrawsFreshIds (before ++ after))
    (hadmits : WalletDB.empty.AdmitsAll G C W (before ++ after)) :
    (WalletDB.empty.run G C W (before ++ after)).CommittedOnce ∧
      NeverRevived (WalletDB.empty.run G C W before)
        (WalletDB.empty.run G C W (before ++ after)) := by
  refine ⟨(CoinsKept.empty.run hadmits).committedOnce, ?_⟩
  obtain ⟨hbefore, hafter⟩ := WalletDB.admitsAll_append.mp hadmits
  have hkept : CoinsKept (WalletDB.empty.run G C W before) := CoinsKept.empty.run hbefore
  have hnone : SlatesKnown [] WalletDB.empty := by rintro t ⟨⟩
  have hknown := hnone.run CoinsKept.empty hbefore
  intro t ht hcanceled u hu hid hslate hfinalized
  have hdead : Dead t.walletTxId t.slateIdOpt (WalletDB.empty.run G C W before) := by
    intro v hv hidv _ hl
    obtain rfl : v = t := List.inj_on_of_nodup_map hkept.nodupIds hv ht hidv
    rcases hl with hl | hl <;> rcases hcanceled with hc | hc <;> simp [hc] at hl
  refine hdead.run hkept hafter ?_ u ?_ hid hslate (.inr hfinalized)
  · intro x hx
    refine (hknown t ht x hx).imp_right ?_
    intro hreceived c hc y hy
    obtain ⟨d, hd, hdx⟩ := List.mem_filterMap.mp hreceived
    exact (List.pairwise_append.mp hids).2.2 d hd c hc x hdx y hy
  · rw [WalletDB.run, List.foldl_append] at hu
    exact hu

section Small

open SmallNet

/-- A slate is sent and cancelled. -/
def sentAndCanceled : List WalletCall := [sendCall (sendDraws 1 60), .cancelTx 1]

/-- The coin is sent again, and the response to the new slate is finalized. -/
def sentAgain : List WalletCall :=
  sendCall (sendDraws 2 61) ::
    ((response (WalletDB.empty.run smallWalletNet smallCrypto (smallWallet 100)
      (sentAndCanceled ++ [sendCall (sendDraws 2 61)])) ⟨scalar 5, scalar 6⟩).map fun slate =>
        .finalize slate 1000).toList

/-- The coin is sent again, and the response to the cancelled slate comes in. -/
def lateResponse : List WalletCall :=
  sendCall (sendDraws 2 61) ::
    ((response (senderDB (sendDraws 1 60)) ⟨scalar 5, scalar 6⟩).map fun slate =>
        .finalize slate 1000).toList

/-- The coin ends up in the second transaction, which is finalized. -/
theorem committedOnce_sentAgain :
    (∃ t ∈ (WalletDB.empty.run smallWalletNet smallCrypto (smallWallet 100)
      (sentAndCanceled ++ sentAgain)).transactions, t.type = .sendingFinalized) ∧
    (WalletDB.empty.run smallWalletNet smallCrypto (smallWallet 100)
      (sentAndCanceled ++ sentAgain)).CommittedOnce ∧
    NeverRevived
      (WalletDB.empty.run smallWalletNet smallCrypto (smallWallet 100) sentAndCanceled)
      (WalletDB.empty.run smallWalletNet smallCrypto (smallWallet 100)
        (sentAndCanceled ++ sentAgain)) :=
  ⟨by decide +kernel,
    committedOnce_run sentAndCanceled sentAgain (by decide +kernel) (by decide +kernel)⟩

/-- A late response revives the cancelled transaction, and the coin is in two. -/
theorem not_committedOnce_lateResponse :
    DrawsFreshIds (sentAndCanceled ++ lateResponse) ∧
    ¬(WalletDB.empty.run smallWalletNet smallCrypto (smallWallet 100)
      (sentAndCanceled ++ lateResponse)).CommittedOnce ∧
    ¬NeverRevived
      (WalletDB.empty.run smallWalletNet smallCrypto (smallWallet 100) sentAndCanceled)
      (WalletDB.empty.run smallWalletNet smallCrypto (smallWallet 100)
        (sentAndCanceled ++ lateResponse)) := by
  refine ⟨by decide +kernel, ?_, by decide +kernel⟩
  intro h
  exact absurd h.once (by decide +kernel)

end Small

end GrinPlusPlus
