import Ancestor.Engine

/-!
The versioned store (`storage/engine/mvcc.go`): metadata, versions, transaction records, and
the resolution of write intents.
-/

namespace Ancestor

open M

variable [Backend]

def mvccGetMeta (eng : Engine) (key : Key) : Except Err (Option MVCCMetadata × ℕ × ℕ) :=
  if key.length = 0 then .error .invalidKey
  else
    let metaKey := newMVCCKey key
    match eng.get metaKey with
    | none => .ok (none, 0, 0)
    | some (.metaData m) => .ok (some m, metaKey.length, m.size)
    | some _ => .error .unmarshalData

def mvccGetTxn (eng : Engine) (key : Key) : Except Err (Option Transaction) :=
  if key.length = 0 then .error .invalidKey
  else
    match eng.get (newMVCCKey key) with
    | none => .ok none
    | some (.txn t) => .ok (some t)
    | some _ => .error .unmarshalData

-- The cursor may stop on another key: the version found must share the encoded user key.
def mvccGetInternal (eng : Engine) (key : Key) (ts : Timestamp) :
    Except Err (Option Value × ℕ × ℕ) :=
  let encKey := newMVCCTimeKey key ts
  match eng.seek encKey with
  | [] => .ok (none, 0, 0)
  | (mvccKey, val) :: _ =>
    if mvccKey.length ≠ encKey.length ∨
        mvccKey.take (mvccKey.length - encodeTimestampSize) ≠
          encKey.take (encKey.length - encodeTimestampSize) then
      .ok (none, mvccKey.length, 0)
    else
      match val with
      | .value v => .ok (v.value, mvccKey.length, v.size)
      | _ => .error .unmarshalData

def mvccGet (eng : Engine) (key : Key) (ts : Timestamp) : Except Err (Option Value × ℕ × ℕ) :=
  if key.length = 0 then .error .invalidKey else mvccGetInternal eng key ts

def mvccPutMeta (key : Key) (txn : Transaction) (deleted : Bool) (origKeySize origValSize : ℕ) :
    M (ℕ × ℕ) := do
  if key.length = 0 then throw .invalidKey
  let metaData : MVCCMetadata := ⟨txn.id, txn.timestamp, deleted⟩
  let metaKey := newMVCCKey key
  putEng metaKey (.metaData metaData)
  updateRangeStats origKeySize origValSize metaKey.length metaData.size
  return (metaKey.length, metaData.size)

/-- The record `MVCCPutTxn` would store, and whether it differs from what is stored.
`stored` is the record found, or none for a begin, which does not look. -/
def nextTxn (stored : Option Transaction) (reqTxn : Transaction) (changeType : TxnChangeType) :
    Except Err (Option Transaction) :=
  let localTxn := stored.getD { reqTxn with lastHeartbeat := reqTxn.timestamp.wallTime }
  let needUpdate := stored.isNone
  if localTxn.status = .committed then
    .error (.transactionStatus localTxn "Transaction had COMMITTED" false)
  else if localTxn.status = .aborted then
    .error (.transactionStatus localTxn "Transaction had ABORTED" true)
  else if changeType = .pushTimestamp ∧ reqTxn.timestamp.less localTxn.timestamp then
    .ok none
  else
    let (localTxn, needUpdate) :=
      if changeType = .heartbeat ∧ reqTxn.lastHeartbeat > localTxn.lastHeartbeat then
        ({ localTxn with lastHeartbeat := reqTxn.lastHeartbeat }, true)
      else (localTxn, needUpdate)
    let (localTxn, needUpdate) :=
      if localTxn.timestamp.less reqTxn.timestamp then
        ({ localTxn with timestamp := reqTxn.timestamp }, true)
      else (localTxn, needUpdate)
    let (localTxn, needUpdate) :=
      if changeType = .pushAbort ∨ changeType = .endTxn then
        ({ localTxn with status := reqTxn.status }, true)
      else (localTxn, needUpdate)
    .ok (if needUpdate then some localTxn else none)

/-- `stats` says whether the caller passes the statistics of the range or nil. -/
def mvccPutTxn (reqTxn : Transaction) (changeType : TxnChangeType) (stats : Bool) : M Unit := do
  let key := newMVCCKey reqTxn.id
  let stored ← read fun eng =>
    if changeType ≠ .beginTxn then mvccGetTxn eng reqTxn.id else .ok none
  let toPut ← read fun _ => nextTxn stored reqTxn changeType
  match toPut with
  | none => return
  | some localTxn =>
    putEng key (.txn localTxn)
    if stats then updateRangeStats 0 0 key.length localTxn.size

def mvccPut (key : Key) (txn : Transaction) (value : Value) : M Unit := do
  let mvccKey := newMVCCTimeKey key txn.timestamp
  let val : MVCCValue := { value := some value }
  putEng mvccKey (.value val)
  updateRangeStats 0 0 mvccKey.length val.size

def mvccClear (key : Key) (timestamp : Timestamp) : M Unit :=
  clearEng (newMVCCTimeKey key timestamp)

def mvccResolveIntentUpdate (key : Key) (txn : Transaction) (localMeta : MVCCMetadata) :
    M Unit := do
  let (val, mvccKeySize, bytesValSize) ← read (mvccGet · key localMeta.timestamp)
  match val with
  | none => throw (.panic "nil value")
  | some val =>
    mvccPut key txn val
    mvccClear key localMeta.timestamp
    updateRangeStats mvccKeySize bytesValSize 0 0

def mvccResolveIntentPending (key : Key) (txn : Transaction) (localMeta : MVCCMetadata)
    (origKeySize origValSize : ℕ) : M Unit := do
  if txn.timestamp.large localMeta.timestamp then
    let _ ← mvccPutMeta key txn localMeta.deleted origKeySize origValSize
    mvccResolveIntentUpdate key txn localMeta

def mvccResolveIntentCommit (key : Key) (txn : Transaction) (localMeta : MVCCMetadata)
    (origKeySize origValSize : ℕ) : M Unit := do
  let _ ← mvccPutMeta key txn localMeta.deleted origKeySize origValSize
  if txn.timestamp.large localMeta.timestamp then
    mvccResolveIntentUpdate key txn localMeta

def mvccResolveIntentAbort (key : Key) (txn : Transaction) (localMeta : MVCCMetadata)
    (origKeySize origValSize : ℕ) : M Unit := do
  mvccClear key localMeta.timestamp
  updateRangeStats origKeySize origValSize 0 0
  let latestKey := newMVCCTimeKey key localMeta.timestamp
  let nextKey := bytesNext latestKey
  let endScanKey := newMVCCKey (bytesNext key)
  let kvs ← read fun eng => .ok (scan eng nextKey endScanKey 1)
  match kvs with
  | [] =>
    clearEng (newMVCCKey key)
    updateRangeStats origKeySize origValSize 0 0
  | (k, e) :: _ =>
    let (_, timestamp, _) ← read fun _ =>
      (decodeMVCCKey k).mapError fun _ => .unmarshalData
    match e with
    | .value ⟨_, some v⟩ =>
      let _ ← mvccPutMeta key { txn with timestamp } (v.bytes.length = 0) origKeySize origValSize
    | .value ⟨_, none⟩ => throw (.panic "nil value")
    | _ => throw .unmarshalData

def mvccResolveIntent (intent : Intent) : M Unit := do
  let resolveTxn := intent.txn
  let resolveKey := intent.key
  let (localMeta, origKeySize, origValSize) ← read (mvccGetMeta · resolveKey)
  match localMeta with
  | none => return
  | some localMeta =>
    if localMeta.transactionID ≠ resolveTxn.id then return
    let updatedTxn : Transaction := { timestamp := resolveTxn.timestamp }
    match resolveTxn.status with
    | .pending =>
      mvccResolveIntentPending resolveKey { updatedTxn with id := resolveTxn.id } localMeta
        origKeySize origValSize
    | .aborted => mvccResolveIntentAbort resolveKey updatedTxn localMeta origKeySize origValSize
    | .committed => mvccResolveIntentCommit resolveKey updatedTxn localMeta origKeySize origValSize

/-- The loop over the intents logs an error and goes on; a panic ends it. -/
def mvccResolveWriteIntent : List Intent → M Unit
  | [] => return
  | intent :: intents => fun s =>
    match mvccResolveIntent intent s with
    | .ok _ s => mvccResolveWriteIntent intents s
    | .error (.panic msg) s => .error (.panic msg) s
    | .error _ s => mvccResolveWriteIntent intents s

end Ancestor
