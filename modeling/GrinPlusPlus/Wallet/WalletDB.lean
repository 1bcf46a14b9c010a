import GrinPlusPlus.Lib.Table
import GrinPlusPlus.Wallet.Slate
import Mathlib.Data.List.Sort

/-!
# The database of a wallet

The tables of `WalletSqlite`: the outputs (one row for each commitment), the transactions (one row
for each number), the slates and the private contexts of the slates that were sent. A write to the
outputs or to the transactions overwrites the row with the same key; a second context for a slate
violates the primary key of its table, and the write throws.

Left out are the encryption of the rows, the armored slatepacks that are stored next to the
slates, and the fields of a row that nothing modelled here reads: the labels of an output, and the
address, the message and the two times of a transaction.
-/

namespace GrinPlusPlus

/-! ### Outputs -/

/-- `EOutputStatus`. -/
inductive EOutputStatus
  | spendable
  | immature
  | noConfirmations
  | spent
  | locked
  | canceled
deriving DecidableEq

/-- `KeyChainPath`, by its indices. -/
abbrev KeyChainPath := List UInt32

/-- `OutputDataEntity`: an output of the wallet. -/
structure OutputDataEntity where
  /-- The path of its key. -/
  keyChainPath : KeyChainPath
  /-- The blinding factor. -/
  blindingFactor : SecretKey
  /-- The output. -/
  output : TransactionOutput
  /-- The amount. -/
  amount : UInt64
  /-- The status. -/
  status : EOutputStatus
  /-- The place in the output MMR, where it is known. -/
  mmrIndexOpt : Option UInt64
  /-- The height of the block that has it, once there is one. -/
  blockHeightOpt : Option UInt64
  /-- The transaction of the wallet that made it. -/
  walletTxIdOpt : Option UInt32
deriving DecidableEq

/-- An optional number whose zero is written for its absence. -/
def zeroAsNone (n : Option UInt64) : Option UInt64 :=
  if n = some 0 then none else n

namespace OutputDataEntity

/-- `OutputDataEntity::GetCommitment`. -/
def getCommitment (o : OutputDataEntity) : Commitment := o.output.commitment

/-- `OutputDataEntity::GetFeatures`. -/
def getFeatures (o : OutputDataEntity) : OutputFeatures := o.output.features

/-- `OutputDataEntity::SetStatus`. -/
def setStatus (o : OutputDataEntity) (status : EOutputStatus) : OutputDataEntity :=
  { o with status := status }

/-- `OutputDataEntity::Deserialize` of `OutputDataEntity::Serialize`: a height or an index of zero
reads as none. -/
def reload (o : OutputDataEntity) : OutputDataEntity :=
  { o with
    mmrIndexOpt := zeroAsNone o.mmrIndexOpt
    blockHeightOpt := zeroAsNone o.blockHeightOpt }

@[simp] theorem getCommitment_setStatus (o : OutputDataEntity) (status : EOutputStatus) :
    (o.setStatus status).getCommitment = o.getCommitment := rfl

@[simp] theorem status_setStatus (o : OutputDataEntity) (status : EOutputStatus) :
    (o.setStatus status).status = status := rfl

@[simp] theorem getCommitment_reload (o : OutputDataEntity) :
    o.reload.getCommitment = o.getCommitment := rfl

@[simp] theorem status_reload (o : OutputDataEntity) : o.reload.status = o.status := rfl

end OutputDataEntity

/-! ### Transactions -/

/-- `EWalletTxType`. -/
inductive EWalletTxType
  | coinbase
  | sent
  | received
  | sentCanceled
  | receivedCanceled
  | sendingStarted
  | receivingInProgress
  | sendingFinalized
deriving DecidableEq

/-- `WalletTx`. -/
structure WalletTx where
  /-- The number. -/
  walletTxId : UInt32
  /-- The type. -/
  type : EWalletTxType
  /-- The slate. -/
  slateIdOpt : Option SlateId
  /-- The height of the block that confirmed it. -/
  confirmedHeightOpt : Option UInt64
  /-- What the wallet gets. -/
  amountCredited : UInt64
  /-- What the wallet spends. -/
  amountDebited : UInt64
  /-- The fee. -/
  feeOpt : Option Fee
  /-- The transaction: the part of the sender, and after `Finalize` the whole. -/
  transactionOpt : Option Transaction
  /-- The payment proof. -/
  paymentProofOpt : Option SlatePaymentProof
deriving DecidableEq

namespace WalletTx

/-- `WalletTx::SetType`. -/
def setType (t : WalletTx) (type : EWalletTxType) : WalletTx :=
  { t with type := type }

/-- `WalletTx::SetTransaction`. -/
def setTransaction (t : WalletTx) (transaction : Transaction) : WalletTx :=
  { t with transactionOpt := some transaction }

/-- `WalletTx::SetConfirmedHeight`. -/
def setConfirmedHeight (t : WalletTx) (blockHeight : UInt64) : WalletTx :=
  { t with confirmedHeightOpt := some blockHeight }

/-- `WalletTx::Deserialize` of `WalletTx::Serialize`. -/
def reload (t : WalletTx) : WalletTx :=
  { t with confirmedHeightOpt := zeroAsNone t.confirmedHeightOpt }

/-- The commitments that the transaction of a row spends. -/
def inputCommitments (t : WalletTx) : List Commitment :=
  match t.transactionOpt with
  | some transaction => transaction.body.inputs.map TransactionInput.commitment
  | none => []

end WalletTx

/-! ### Contexts -/

/-- `SlateContextEntity`: what the sender of a slate keeps to itself. -/
structure SlateContextEntity where
  /-- The secret key. -/
  secretKey : SecretKey
  /-- The secret nonce. -/
  secretNonce : SecretKey
  /-- The coins that are spent. -/
  inputs : List OutputDataEntity
  /-- The change. -/
  outputs : List OutputDataEntity
deriving DecidableEq

/-- `SlateContextEntity::Deserialize` of `SlateContextEntity::Serialize`. -/
def SlateContextEntity.reload (c : SlateContextEntity) : SlateContextEntity :=
  { c with
    inputs := c.inputs.map OutputDataEntity.reload
    outputs := c.outputs.map OutputDataEntity.reload }

/-! ### The tables -/

/-- The database of a wallet. -/
structure WalletDB where
  /-- `OutputsTable`. -/
  outputs : List OutputDataEntity
  /-- `TransactionsTable`. -/
  transactions : List WalletTx
  /-- `SlateTable`. -/
  slates : List Slate
  /-- `SlateContextTable`. -/
  slateContexts : List (SlateId × SlateContextEntity)
  /-- `AccountsTable`: the index of the next key. -/
  nextChildIndex : UInt32
  /-- `AccountsTable`: the index of the current address. -/
  currentAddressIndex : ℕ
  /-- `UserMetadata`: the number of the next transaction. -/
  nextTxId : UInt32
  /-- `UserMetadata`: the height of the chain at the last refresh. -/
  refreshBlockHeight : UInt64
deriving DecidableEq

/-- The scan of the transactions is in the order of their numbers, which the table holds as
signed integers of 32 bits. -/
def placeTransaction (t : WalletTx) (rows : List WalletTx) : List WalletTx :=
  rows.orderedInsert (fun a b => a.walletTxId.toInt32 ≤ b.walletTxId.toInt32) t

theorem perm_placeTransaction (t : WalletTx) (rows : List WalletTx) :
    (placeTransaction t rows).Perm (t :: rows) :=
  List.perm_orderedInsert _ t rows

namespace WalletDB

/-- The database of a new wallet. -/
def empty : WalletDB where
  outputs := []
  transactions := []
  slates := []
  slateContexts := []
  nextChildIndex := 0
  currentAddressIndex := 0
  nextTxId := 0
  refreshBlockHeight := 0

/-- `WalletSqlite::AddOutputs`. -/
def addOutputs (db : WalletDB) (outputs : List OutputDataEntity) : WalletDB :=
  { db with
    outputs := List.upsertAll OutputDataEntity.getCommitment List.placeLast
      (outputs.map OutputDataEntity.reload) db.outputs }

/-- `WalletSqlite::AddTransaction`. -/
def addTransaction (db : WalletDB) (t : WalletTx) : WalletDB :=
  { db with
    transactions := List.upsert WalletTx.walletTxId placeTransaction t.reload db.transactions }

/-- `WalletSqlite::SaveSlate`: a row is added, whatever rows there are. -/
def saveSlate (db : WalletDB) (slate : Slate) : WalletDB :=
  { db with slates := db.slates ++ [slate.reload] }

/-- `WalletSqlite::LoadSlate`: the first row of a slate and a stage. -/
def loadSlate (db : WalletDB) (slateId : SlateId) (stage : ESlateStage) : Option Slate :=
  db.slates.find? fun s => s.slateId = slateId ∧ s.stage = stage

/-- `WalletSqlite::SaveSlateContext`. -/
def saveSlateContext (db : WalletDB) (slateId : SlateId) (context : SlateContextEntity) :
    Except WalletExc WalletDB :=
  if slateId ∈ db.slateContexts.map Prod.fst then
    .error (.store "Error finalizing statement.")
  else .ok { db with slateContexts := db.slateContexts ++ [(slateId, context.reload)] }

/-- `WalletSqlite::LoadSlateContext`. -/
def loadSlateContext (db : WalletDB) (slateId : SlateId) : Option SlateContextEntity :=
  (db.slateContexts.find? fun row => row.1 = slateId).map Prod.snd

/-- `WalletSqlite::GetTransactionById`. -/
def getTransactionById (db : WalletDB) (walletTxId : UInt32) : Option WalletTx :=
  db.transactions.find? fun t => t.walletTxId = walletTxId

/-- `Wallet::GetTransactionBySlateId` and `WalletImpl::GetTxBySlateId`: the first row. -/
def getTransactionBySlateId (db : WalletDB) (slateId : SlateId) : Option WalletTx :=
  db.transactions.find? fun t => t.slateIdOpt = some slateId

/-- `WalletSqlite::GetNextTransactionId`. -/
def getNextTransactionId (db : WalletDB) : UInt32 × WalletDB :=
  (db.nextTxId, { db with nextTxId := db.nextTxId + 1 })

/-- `WalletSqlite::GetNextChildPath`. -/
def getNextChildPath (db : WalletDB) (parentPath : KeyChainPath) : KeyChainPath × WalletDB :=
  (parentPath ++ [db.nextChildIndex], { db with nextChildIndex := db.nextChildIndex + 1 })

/-- `WalletSqlite::UpdateRefreshBlockHeight`. -/
def updateRefreshBlockHeight (db : WalletDB) (height : UInt64) : WalletDB :=
  { db with refreshBlockHeight := height }

/-! ### What a write leaves alone -/

section Frames

variable (db : WalletDB)

@[simp] theorem transactions_addOutputs (outputs : List OutputDataEntity) :
    (db.addOutputs outputs).transactions = db.transactions := rfl

@[simp] theorem slates_addOutputs (outputs : List OutputDataEntity) :
    (db.addOutputs outputs).slates = db.slates := rfl

@[simp] theorem slateContexts_addOutputs (outputs : List OutputDataEntity) :
    (db.addOutputs outputs).slateContexts = db.slateContexts := rfl

@[simp] theorem outputs_addTransaction (t : WalletTx) :
    (db.addTransaction t).outputs = db.outputs := rfl

@[simp] theorem slates_addTransaction (t : WalletTx) :
    (db.addTransaction t).slates = db.slates := rfl

@[simp] theorem slateContexts_addTransaction (t : WalletTx) :
    (db.addTransaction t).slateContexts = db.slateContexts := rfl

@[simp] theorem outputs_saveSlate (slate : Slate) :
    (db.saveSlate slate).outputs = db.outputs := rfl

@[simp] theorem transactions_saveSlate (slate : Slate) :
    (db.saveSlate slate).transactions = db.transactions := rfl

@[simp] theorem slateContexts_saveSlate (slate : Slate) :
    (db.saveSlate slate).slateContexts = db.slateContexts := rfl

/-- A context is added, or the call throws. -/
theorem saveSlateContext_eq_ok_iff {db db' : WalletDB} {slateId : SlateId}
    {context : SlateContextEntity} : db.saveSlateContext slateId context = .ok db' ↔
      slateId ∉ db.slateContexts.map Prod.fst ∧
        db' = { db with slateContexts := db.slateContexts ++ [(slateId, context.reload)] } := by
  rw [saveSlateContext]
  split
  · next hmem => simp [hmem]
  · next hnew => simp [hnew, eq_comm]

/-! ### Reading rows back -/

/-- A slate that can be loaded stays the one that is loaded. -/
theorem loadSlate_of_append {db db' : WalletDB} {slates : List Slate}
    (h : db'.slates = db.slates ++ slates) {slateId : SlateId} {stage : ESlateStage} {slate : Slate}
    (hload : db.loadSlate slateId stage = some slate) :
    db'.loadSlate slateId stage = some slate := by
  rw [loadSlate] at hload ⊢
  rw [h, List.find?_append, hload, Option.some_or]

/-- A context that can be loaded stays the one that is loaded. -/
theorem loadSlateContext_of_append {db db' : WalletDB}
    {contexts : List (SlateId × SlateContextEntity)}
    (h : db'.slateContexts = db.slateContexts ++ contexts) {slateId : SlateId}
    {context : SlateContextEntity} (hload : db.loadSlateContext slateId = some context) :
    db'.loadSlateContext slateId = some context := by
  rw [loadSlateContext, Option.map_eq_some_iff] at hload ⊢
  obtain ⟨row, hfind, hrow⟩ := hload
  exact ⟨row, by rw [h, List.find?_append, hfind, Option.some_or], hrow⟩

/-- The first context of a slate is loaded. -/
theorem loadSlateContext_of_new {db db' : WalletDB} {slateId : SlateId}
    {context : SlateContextEntity}
    (h : db'.slateContexts = db.slateContexts ++ [(slateId, context)])
    (hnew : slateId ∉ db.slateContexts.map Prod.fst) :
    db'.loadSlateContext slateId = some context := by
  have hnone : (db.slateContexts.find? fun row => row.1 = slateId) = none := by
    rw [List.find?_eq_none]
    rintro row hrow heq
    exact hnew (List.mem_map.mpr ⟨row, hrow, by simpa using heq⟩)
  rw [loadSlateContext, h, List.find?_append, hnone, Option.none_or]
  simp

theorem of_loadSlateContext {db : WalletDB} {slateId : SlateId} {context : SlateContextEntity}
    (h : db.loadSlateContext slateId = some context) : (slateId, context) ∈ db.slateContexts := by
  rw [loadSlateContext, Option.map_eq_some_iff] at h
  obtain ⟨row, hfind, rfl⟩ := h
  have hkey : row.1 = slateId := by simpa using List.find?_some hfind
  exact hkey ▸ List.mem_of_find?_eq_some hfind

theorem of_getTransactionBySlateId {db : WalletDB} {slateId : SlateId} {t : WalletTx}
    (h : db.getTransactionBySlateId slateId = some t) :
    t ∈ db.transactions ∧ t.slateIdOpt = some slateId :=
  ⟨List.mem_of_find?_eq_some h, by simpa using List.find?_some h⟩

theorem of_getTransactionById {db : WalletDB} {walletTxId : UInt32} {t : WalletTx}
    (h : db.getTransactionById walletTxId = some t) :
    t ∈ db.transactions ∧ t.walletTxId = walletTxId :=
  ⟨List.mem_of_find?_eq_some h, by simpa using List.find?_some h⟩

end Frames

end WalletDB

end GrinPlusPlus
