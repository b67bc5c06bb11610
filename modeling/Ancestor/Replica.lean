import Ancestor.Mvcc

/-!
The commands of a replica (`storage/replica_command.go`): reads, writes, and the requests on
transaction records.
-/

namespace Ancestor

open M

variable [Backend]

structure RequestHeader where
  key : Key
  timestamp : Timestamp := .zero
  rangeID : RangeID := 0
  txn : Transaction := {}
  deriving DecidableEq, Repr

structure PutRequest extends RequestHeader where
  value : Value
  deriving DecidableEq, Repr

structure EndTransactionRequest extends RequestHeader where
  commit : Bool
  deriving DecidableEq, Repr

structure ResolveIntentRequest extends RequestHeader where
  intents : List Intent
  deriving DecidableEq, Repr

structure PushTransactionRequest extends RequestHeader where
  pusheeKey : Key
  pushType : PushTxnType
  latestTimestamp : Timestamp
  deriving DecidableEq, Repr

/-- Five seconds, in nanoseconds. -/
def txnExpiredTime : Int64 := 5000000000

/-! ### Reads -/

def getInternal (eng : Engine) (key : Key) (ts : Timestamp) (txn : Transaction) :
    Except Err (Option Value) := do
  let (metaData, _, _) ← mvccGetMeta eng key
  match metaData with
  | none => return none
  | some metaData =>
    let (ts, checkDel) ←
      if metaData.transactionID ≠ [] then
        if metaData.transactionID ≠ txn.id then
          if ¬ ts.less metaData.timestamp then
            throw (.writeIntent
              (newWriteIntentError txn .pushTimestamp metaData.transactionID key))
          else pure (ts, false)
        else pure (metaData.timestamp, true)
      else pure (ts, !ts.less metaData.timestamp)
    if checkDel && metaData.deleted then return none
    let (val, _, _) ← mvccGet eng key ts
    return val

/-- The value of the response: an absent one is answered as the empty value. -/
def get (eng : Engine) (req : RequestHeader) : Except Err Value := do
  let val ← getInternal eng req.key req.timestamp req.txn
  return val.getD {}

/-! ### Writes -/

def isNoneValue (val : Value) : Bool :=
  val.bytes.length = 0 && val.checksum = 0 && val.timestamp = none && val.tag = .unknown

def putDataAndMeta (key : Key) (txn : Transaction) (val : Value) (deleted : Bool)
    (origKeySize origValSize : ℕ) : M Unit := do
  let _ ← mvccPutMeta key txn deleted origKeySize origValSize
  mvccPut key txn val

/-- The check of `put` on the metadata it finds, and its effect on the transaction's own
intent: a version at another timestamp is cleared. -/
def putCheck (key : Key) (txn : Transaction) (ts : Timestamp) (metaData : Option MVCCMetadata) :
    M Unit := do
  match metaData with
  | none => return
  | some metaData =>
    if metaData.transactionID = [] then
      if ts.less metaData.timestamp then throw (.writeTooOld ts metaData.timestamp)
    else
      if metaData.transactionID ≠ txn.id then
        throw (.writeIntent (newWriteIntentError txn .pushAbort metaData.transactionID key))
      if ¬ metaData.timestamp.equal ts then mvccClear key metaData.timestamp

-- A deletion of a key that is absent or deleted already writes nothing.
def put (req : PutRequest) : M Unit := do
  let noneValue := isNoneValue req.value
  let (metaData, origKeySize, origValSize) ← read (mvccGetMeta · req.key)
  putCheck req.key req.txn req.timestamp metaData
  if noneValue && metaData.elim true (·.deleted) then return
  putDataAndMeta req.key req.txn req.value noneValue origKeySize origValSize

def resolveIntent (req : ResolveIntentRequest) : M Unit := mvccResolveWriteIntent req.intents

/-! ### Transaction records -/

def beginTransaction (txn : Transaction) : M Unit := mvccPutTxn txn .beginTxn true

def endTransaction (txn : Transaction) (commit : Bool) : M Unit :=
  mvccPutTxn { txn with status := if commit then .committed else .aborted } .endTxn false

/-- The response names the transaction as aborted when its record is decided; other errors
are logged only. -/
def heartbeatTransaction (txn : Transaction) : M (Option Transaction) := fun s =>
  match mvccPutTxn txn .heartbeat false s with
  | .ok _ s => .ok none s
  | .error (.transactionStatus _ _ _) s => .ok (some { id := txn.id, status := .aborted }) s
  | .error _ s => .ok none s

def processPushTransaction (key : Key) (latestTimestamp : Timestamp) (pushType : PushTxnType)
    (pusherTxn : Transaction) : M Transaction := do
  let pusheeTxn ← read (mvccGetTxn · key)
  match pusheeTxn with
  | none => throw (.invalidTransaction "not found txnID" key)
  | some pusheeTxn =>
    if pusheeTxn.status ≠ .pending then return pusheeTxn
    if pushType = .pushTimestamp ∧ pusheeTxn.timestamp.large pusherTxn.timestamp then
      return pusheeTxn
    if latestTimestamp.wallTime - pusheeTxn.lastHeartbeat > txnExpiredTime then
      let pusheeTxn := { pusheeTxn with status := .aborted }
      mvccPutTxn pusheeTxn .pushAbort false
      return pusheeTxn
    if pusherTxn.priority < pusheeTxn.priority then throw (.transactionAborted pusherTxn)
    match pushType with
    | .pushTimestamp =>
      match pusherTxn.timestamp.next with
      | none => throw (.panic "cannot take the next value to a max timestamp")
      | some timestamp =>
        let pusheeTxn := { pusheeTxn with timestamp }
        mvccPutTxn pusheeTxn .pushTimestamp false
        return pusheeTxn
    | .pushAbort =>
      let pusheeTxn := { pusheeTxn with status := .aborted }
      mvccPutTxn pusheeTxn .pushAbort false
      return pusheeTxn
    | .pushTouch => throw (.transactionAborted pusherTxn)

def pushTransaction (req : PushTransactionRequest) : M Transaction :=
  processPushTransaction req.pusheeKey req.latestTimestamp req.pushType req.txn

end Ancestor
