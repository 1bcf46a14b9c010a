import GrinPlusPlus.Wallet.SlateBuilder

/-!
# The calls of a wallet

`CancelTx`, `WalletRefresher` and the calls of `WalletManager`, on the whole database. The node is
asked for the height of the chain, for the outputs that the seed can recover, and for the place of
the wallet's own commitments on the chain; its answers are arguments, and nothing ties the answers
of one call to those of another.

A call that throws leaves the database as it was. Only `Send` works in two batches: it refreshes
the outputs first, and the refresh stays when the coins do not suffice.
-/

namespace GrinPlusPlus

/-! ### Cancelling -/

namespace CancelTx

/-- The type of a cancelled transaction. -/
def canceledType (type : EWalletTxType) : Option EWalletTxType :=
  match type with
  | .receivingInProgress => some .receivedCanceled
  | .sendingStarted | .sendingFinalized => some .sentCanceled
  | _ => none

/-- The status of an input of a cancelled transaction that is written back, if any is. The row is
of a transaction that was sent, else it had no inputs. -/
def releasedStatus (status : EOutputStatus) : Option EOutputStatus :=
  match status with
  | .noConfirmations | .spent => some .canceled
  | .locked => some .spendable
  | _ => none

/-- The status of an output of a cancelled transaction that is written back, if any is. -/
def revokedStatus (status : EOutputStatus) : Except WalletExc (Option EOutputStatus) :=
  match status with
  | .noConfirmations | .spent => .ok (some .canceled)
  | .canceled => .ok none
  | _ => .error (.wallet "Output not in a cancelable status.")

/-- `CancelTx::GetOutputsToUpdate`. -/
def getOutputsToUpdate (inputCommitments : List Commitment) (walletTx : WalletTx) :
    List OutputDataEntity → Except WalletExc (List OutputDataEntity)
  | [] => .ok []
  | output :: outputs => do
    let status ← (
      if output.getCommitment ∈ inputCommitments then .ok (releasedStatus output.status)
      else if output.walletTxIdOpt = some walletTx.walletTxId then revokedStatus output.status
      else .ok none)
    let rest ← getOutputsToUpdate inputCommitments walletTx outputs
    .ok ((status.map output.setStatus).toList ++ rest)

/-- `CancelTx::CancelWalletTx`. -/
def cancelWalletTx (db : WalletDB) (walletTx : WalletTx) : Except WalletExc WalletDB := do
  let type ← orFail (canceledType walletTx.type)
    (.wallet "WalletTx not in a cancelable status.")
  let walletTx := walletTx.setType type
  let inputCommitments := if type = .sentCanceled then walletTx.inputCommitments else []
  let outputsToUpdate ← getOutputsToUpdate inputCommitments walletTx db.outputs
  .ok ((db.addOutputs outputsToUpdate).addTransaction walletTx)

end CancelTx

/-- `Wallet::CancelTx`: a number without a transaction is no error. -/
def cancelTx (db : WalletDB) (walletTxId : UInt32) : Except WalletExc WalletDB :=
  match db.getTransactionById walletTxId with
  | some walletTx => CancelTx.cancelWalletTx db walletTx
  | none => .ok db

/-! ### Refreshing -/

/-- What the node answers during a refresh. -/
structure RefreshAnswers where
  /-- `INodeClient::GetChainHeight`, when the refresh starts … -/
  chainHeight : UInt64
  /-- … and when the outputs are looked up. -/
  lastConfirmedHeight : UInt64
  /-- `OutputRestorer::FindAndRewindOutputs`: the outputs on the chain that belong to the seed. -/
  restoredOutputs : List OutputDataEntity
  /-- `INodeClient::GetOutputsByCommitment`: the height of the block of a commitment that is on
  the chain. -/
  outputLocations : Commitment → Option UInt64

namespace WalletRefresher

/-- `WalletRefresher::FindOutput`. -/
def findOutput (walletOutputs : List OutputDataEntity) (commitment : Commitment) :
    Option OutputDataEntity :=
  walletOutputs.find? fun output => output.getCommitment = commitment

/-- `WalletRefresher::FindNewOutputs`. -/
def findNewOutputs (walletOutputs restoredOutputs : List OutputDataEntity) :
    List OutputDataEntity :=
  restoredOutputs.filter fun output =>
    output.status ≠ .spent ∧ findOutput walletOutputs output.getCommitment = none

/-- What a refresh works on: the database, and the outputs and transactions in memory. -/
structure RefreshState where
  /-- The database. -/
  db : WalletDB
  /-- The outputs. -/
  walletOutputs : List OutputDataEntity
  /-- The transactions. -/
  walletTransactions : List WalletTx

/-- The transaction of an output that was not known. -/
def receivedTx (walletTxId : UInt32) (output : OutputDataEntity) : WalletTx where
  walletTxId := walletTxId
  type := .received
  slateIdOpt := none
  confirmedHeightOpt := output.blockHeightOpt
  amountCredited := output.amount
  amountDebited := 0
  feeOpt := none
  transactionOpt := none
  paymentProofOpt := none

/-- An output that was not known, with a transaction of its own. -/
def addNewOutput (s : RefreshState) (output : OutputDataEntity) : RefreshState :=
  let (walletTxId, db) := s.db.getNextTransactionId
  let walletTx := receivedTx walletTxId output
  let output : OutputDataEntity := { output with walletTxIdOpt := some walletTxId }
  { db := (db.addOutputs [output]).addTransaction walletTx
    walletOutputs := s.walletOutputs ++ [output]
    walletTransactions := s.walletTransactions ++ [walletTx] }

/-- The output that `WalletRefresher::RefreshOutputs` saves in place of another, if it saves
one. -/
def updatedOutput (outputLocations : Commitment → Option UInt64) (output : OutputDataEntity) :
    Option OutputDataEntity :=
  match outputLocations output.getCommitment with
  | some blockHeight =>
    if output.status = .locked ∨ output.status = .spendable then none
    else some { output with blockHeightOpt := some blockHeight, status := .spendable }
  | none =>
    if output.status = .noConfirmations ∨ output.status = .spent ∨ output.status = .canceled then
      none
    else some (output.setStatus .spent)

/-- `WalletRefresher::RefreshOutputs`. -/
def refreshOutputs (answers : RefreshAnswers) (s : RefreshState) : RefreshState :=
  { s with
    db := (s.db.addOutputs
      (s.walletOutputs.filterMap (updatedOutput answers.outputLocations))).updateRefreshBlockHeight
        answers.lastConfirmedHeight
    walletOutputs := s.walletOutputs.map fun output =>
      (updatedOutput answers.outputLocations output).getD output }

/-- The row that the first loop of `WalletRefresher::RefreshTransactions` writes for an output, if
it writes one: the output is on the chain, so its transaction is confirmed. The transactions are
looked up among those of the start, whatever was written in the meantime. -/
def confirmedTx (walletTransactions : List WalletTx) (output : OutputDataEntity) :
    Option WalletTx := do
  let walletTxId ← output.walletTxIdOpt
  let walletTx ← walletTransactions.find? fun t => t.walletTxId = walletTxId
  let blockHeight ← output.blockHeightOpt
  let walletTx := walletTx.setConfirmedHeight blockHeight
  if walletTx.type = .receivingInProgress then some (walletTx.setType .received)
  else if walletTx.type = .sendingFinalized then some (walletTx.setType .sent)
  else none

/-- The row that the second loop of `WalletRefresher::RefreshTransactions` writes for a
transaction, if it writes one: the first of its outputs that belongs to the wallet is spent. -/
def spentTx (refreshedOutputs : List OutputDataEntity) (walletTx : WalletTx) : Option WalletTx := do
  let transaction ← walletTx.transactionOpt
  if walletTx.type = .sendingFinalized then
    let output ← transaction.body.outputs.findSome? fun output =>
      findOutput refreshedOutputs output.commitment
    if output.status = .spent then some (walletTx.setType .sent) else none
  else none

/-- `WalletRefresher::RefreshTransactions`. -/
def refreshTransactions (s : RefreshState) : WalletDB :=
  (s.walletOutputs.filterMap (confirmedTx s.walletTransactions) ++
    s.walletTransactions.filterMap (spentTx s.walletOutputs)).foldl WalletDB.addTransaction s.db

/-- `WalletRefresher::Refresh`, with the outputs that it returns. -/
def refresh (db : WalletDB) (answers : RefreshAnswers) : List OutputDataEntity × WalletDB :=
  if answers.chainHeight < db.refreshBlockHeight then ([], db)
  else
    let s : RefreshState := ⟨db, db.outputs, db.transactions⟩
    let s := (findNewOutputs db.outputs answers.restoredOutputs).foldl addNewOutput s
    let s := refreshOutputs answers s
    (s.walletOutputs, refreshTransactions s)

end WalletRefresher

/-! ### The calls -/

section Calls

variable (G : Global) (C : Crypto) (W : WalletImpl G)

/-- `WalletUtil::IsOutputImmature`. -/
def isOutputImmature (features : OutputFeatures) (outputHeight currentHeight : UInt64) : Bool :=
  if features = .coinbaseOutput then
    Consensus.getMaxCoinbaseHeight G.env currentHeight.toNat ≤ outputHeight.toNat
  else currentHeight < outputHeight + W.minimumConfirmations

/-- The coins that `WalletImpl::GetAllAvailableCoins` finds among the refreshed outputs. -/
def availableCoins (outputs : List OutputDataEntity) (tipHeight : UInt64) :
    List OutputDataEntity :=
  outputs.filter fun output =>
    output.status = .spendable ∧
      isOutputImmature G W output.getFeatures (output.blockHeightOpt.getD 0) tipHeight = false

/-- What the node answers during a `Send`. -/
structure SendAnswers where
  /-- `INodeClient::GetTipHeader`, by its height. -/
  tipHeightOpt : Option UInt64
  /-- The answers to the refresh. -/
  refresh : RefreshAnswers
  /-- `INodeClient::GetChainHeight`. -/
  chainHeight : UInt64

/-- A call of the wallet, with what it draws at random and what the node answers. -/
inductive WalletCall
  | send (criteria : SendCriteria) (draws : SendDraws) (answers : SendAnswers)
  | receive (slate : Slate) (draws : ReceiveDraws)
  | finalize (slate : Slate) (chainHeight : UInt64)
  | cancelTx (walletTxId : UInt32)
  | refresh (answers : RefreshAnswers)

/-- What a call gives: the slate it returns, the partial signature that is returned and stored
with it, and the transaction. -/
structure WalletResult where
  /-- The slate. -/
  slateOpt : Option Slate
  /-- The partial signature. -/
  signingOpt : Option PartialSigning
  /-- The transaction. -/
  transactionOpt : Option Transaction

/-- `WalletManager::Send`. -/
def send (db : WalletDB) (criteria : SendCriteria) (draws : SendDraws) (answers : SendAnswers) :
    Except WalletExc WalletResult × WalletDB :=
  match answers.tipHeightOpt with
  | none => (.error (.core (.runtime "Tip header not received")), db)
  | some tipHeight =>
    let (outputs, refreshed) := WalletRefresher.refresh db answers.refresh
    match SendSlateBuilder.buildSendSlate G C W refreshed
        (availableCoins G W outputs tipHeight) answers.chainHeight criteria draws with
    | .ok (slate, db) => (.ok ⟨some slate, none, none⟩, db)
    | .error e => (.error e, refreshed)

/-- One call of the wallet. -/
def walletStep (db : WalletDB) : WalletCall → Except WalletExc WalletResult × WalletDB
  | .send criteria draws answers => send G C W db criteria draws answers
  | .receive slate draws =>
    match ReceiveSlateBuilder.addReceiverData G C W db slate draws with
    | .ok r => (.ok ⟨some r.slate, some r.signing, none⟩, r.db)
    | .error e => (.error e, db)
  | .finalize slate chainHeight =>
    match FinalizeSlateBuilder.finalize G C W db slate chainHeight with
    | .ok r => (.ok ⟨some r.slate, some r.signing, some r.transaction⟩, r.db)
    | .error e => (.error e, db)
  | .cancelTx walletTxId =>
    match GrinPlusPlus.cancelTx db walletTxId with
    | .ok db => (.ok ⟨none, none, none⟩, db)
    | .error e => (.error e, db)
  | .refresh answers => (.ok ⟨none, none, none⟩, (WalletRefresher.refresh db answers).2)

end Calls

end GrinPlusPlus
