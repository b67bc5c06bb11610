import Ancestor.Key

/-!
The records the storage layer keeps and the errors it answers with (`meta/data.proto`,
`meta/errors.proto`, `storage/engine/mvcc.proto`).

A nil byte slice and an empty one are the same here: a transaction or a value reaches the
replica through its protobuf code, which writes both alike.
-/

namespace Ancestor

abbrev RangeID := Int64
abbrev NodeID := Int32

inductive ValueType
  | unknown | int | float | bytes | time | timeseries | metadata | transaction | mvccValue
  deriving DecidableEq, Repr

structure Value where
  bytes : Bytes := []
  checksum : UInt32 := 0
  timestamp : Option Timestamp := none
  tag : ValueType := .unknown
  deriving DecidableEq, Repr

inductive TransactionStatus
  | pending | committed | aborted
  deriving DecidableEq, Repr

structure Transaction where
  name : String := ""
  id : Key := []
  priority : Int32 := 0
  status : TransactionStatus := .pending
  lastHeartbeat : Int64 := 0
  timestamp : Timestamp := .zero
  sequence : UInt32 := 0
  deriving DecidableEq, Repr

structure Intent where
  key : Key
  txn : Transaction
  deriving DecidableEq, Repr

/-- What the engine keeps about a key; `transactionID` is empty when the newest version is
committed. -/
structure MVCCMetadata where
  transactionID : Key
  timestamp : Timestamp
  deleted : Bool
  deriving DecidableEq, Repr

structure MVCCValue where
  deleted : Bool := false
  value : Option Value
  deriving DecidableEq, Repr

structure ReplicaDescriptor where
  nodeID : NodeID
  replicaID : Int32 := 0
  deriving DecidableEq, Repr

/-- A range holds the keys from `startKey` up to, and without, `endKey`. -/
structure RangeDescriptor where
  rangeID : RangeID
  startKey : Key
  endKey : Key
  replicas : List ReplicaDescriptor := []
  deriving DecidableEq, Repr

inductive EntryType
  | normal | confChange
  deriving DecidableEq, Repr

/-- An entry of a raft log. -/
structure RaftEntry where
  type : EntryType := .normal
  term : UInt64
  index : UInt64
  data : Bytes := []
  deriving DecidableEq, Repr

inductive PushTxnType
  | pushTimestamp | pushAbort | pushTouch
  deriving DecidableEq, Repr

inductive TxnChangeType
  | heartbeat | beginTxn | endTxn | pushTimestamp | pushAbort
  deriving DecidableEq, Repr

structure WriteIntentError where
  intent : Intent
  pusherTxn : Transaction
  pushType : PushTxnType
  deriving DecidableEq, Repr

def newWriteIntentError (pusherTxn : Transaction) (pushType : PushTxnType)
    (pusheeTxnID pusheeKey : Key) : WriteIntentError :=
  ⟨⟨pusheeKey, { id := pusheeTxnID }⟩, pusherTxn, pushType⟩

inductive Err
  | invalidKey
  | unmarshalData
  | writeTooOld (timestamp existingTimestamp : Timestamp)
  | writeIntent (e : WriteIntentError)
  | transactionStatus (txn : Transaction) (msg : String) (retry : Bool)
  | transactionAborted (txn : Transaction)
  | invalidTransaction (msg : String) (id : Key)
  | notLeader (nodeID : NodeID)
  | readPriority
  | rangeNotFound (id : RangeID)
  | invalidRange
  | replicaExists (id : RangeID)
  | noSplitKey
  | decodeKey (msg : String)
  /-- A panic of the node: a nil pointer, or a timestamp without a successor. -/
  | panic (msg : String)
  deriving DecidableEq, Repr

/-! ### Sizes of the protobuf codes -/

/-- The length of a varint: one byte for each group of seven bits. -/
def sov (x : UInt64) : ℕ := x.toNat.log2 / 7 + 1

/-- A length-delimited field. -/
def fieldSize (l : ℕ) : ℕ := 1 + l + sov (UInt64.ofNat l)

def bytesSize (b : Bytes) : ℕ := if b.length > 0 then fieldSize b.length else 0

def varintSize (x : UInt64) : ℕ := if x ≠ 0 then 1 + sov x else 0

def Timestamp.size (t : Timestamp) : ℕ :=
  varintSize t.wallTime.toUInt64 + varintSize t.logical.toInt64.toUInt64

def ValueType.code : ValueType → UInt64
  | .unknown => 0
  | .int => 1
  | .float => 2
  | .bytes => 3
  | .time => 4
  | .timeseries => 100
  | .metadata => 101
  | .transaction => 102
  | .mvccValue => 103

def TransactionStatus.code : TransactionStatus → UInt64
  | .pending => 0
  | .committed => 1
  | .aborted => 2

def Value.size (v : Value) : ℕ :=
  bytesSize v.bytes + (if v.checksum ≠ 0 then 5 else 0) +
    (v.timestamp.elim 0 fun t => fieldSize t.size) + varintSize v.tag.code

def Transaction.size (t : Transaction) : ℕ :=
  (if t.name.utf8ByteSize > 0 then fieldSize t.name.utf8ByteSize else 0) + bytesSize t.id +
    varintSize t.priority.toInt64.toUInt64 + varintSize t.status.code +
    varintSize t.lastHeartbeat.toUInt64 + fieldSize t.timestamp.size +
    varintSize t.sequence.toUInt64

def MVCCMetadata.size (m : MVCCMetadata) : ℕ :=
  bytesSize m.transactionID + fieldSize m.timestamp.size + 2

def EntryType.code : EntryType → UInt64
  | .normal => 0
  | .confChange => 1

-- The numbers are required fields: a zero is written too.
def RaftEntry.size (e : RaftEntry) : ℕ :=
  1 + sov e.type.code + (1 + sov e.term) + (1 + sov e.index) + bytesSize e.data

def MVCCValue.size (v : MVCCValue) : ℕ := 2 + v.value.elim 0 fun x => fieldSize x.size

end Ancestor
