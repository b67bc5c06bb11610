import Ancestor.Lib.Decimal
import Ancestor.Snapshot

/-!
The raft log of a range (`storage/replica_raftstorage.go`).

The entries of a log are stored in the engine under keys made of the range ID and the index,
both written with sixteen digits. Beside them stand the offset, the applied and the last
index, which a replica also keeps in memory and reads back when it starts.
-/

namespace Ancestor

open Encoding Bytes

/-! ### Keys -/

-- "rflg"
def logKeyPrefix : Bytes := systemPrefix ++ [0x72, 0x66, 0x6c, 0x67]

-- "rfai"
def appliedIndexPrefix : Bytes := systemPrefix ++ [0x72, 0x66, 0x61, 0x69]

-- "rfli"
def lastIndexPrefix : Bytes := systemPrefix ++ [0x72, 0x66, 0x6c, 0x69]

-- "rfof"
def offsetIndexPrefix : Bytes := systemPrefix ++ [0x72, 0x66, 0x6f, 0x66]

/-- A signed number with at least `p` digits; `p = 0` is the plain form. -/
def fmtInt (p : ℕ) (i : Int64) : Bytes :=
  if i < 0 then 0x2d :: decimalPad p i.toInt.natAbs else decimalPad p i.toInt.toNat

def raftLogKey (id : RangeID) (index : UInt64) : MVCCKey :=
  newMVCCKey (newKey [logKeyPrefix, fmtInt 16 id, [0x5f], decimalPad 16 index.toNat])

def raftAppliedIndexKey (id : RangeID) : MVCCKey :=
  newMVCCKey (newKey [appliedIndexPrefix, fmtInt 0 id])

def raftLastIndexKey (id : RangeID) : MVCCKey :=
  newMVCCKey (newKey [lastIndexPrefix, fmtInt 0 id])

def raftOffsetIndexKey (id : RangeID) : MVCCKey :=
  newMVCCKey (newKey [offsetIndexPrefix, fmtInt 0 id])

/-! ### The indexes of a replica -/

inductive RaftErr
  | invalidParameter (rangeID : RangeID) (lo hi maxSize : UInt64)
  | compacted
  | unavailable
  | gap (lo hi index : UInt64)
  | unmarshal
  | notInt (tag : ValueType)
  | intSize (length : ℕ)
  | decodeInt (msg : String)
  | noNeedCompact (rangeID : RangeID) (offset index : UInt64)
  | outOfLastIndex (rangeID : RangeID) (lastIndex : UInt64)
  deriving DecidableEq, Repr

/-- A replica with what it keeps of its log in memory. -/
structure RaftReplica extends Replica where
  raftOffsetIndex : UInt64 := 0
  raftAppliedIndex : UInt64 := 0
  raftTruncateIndex : UInt64 := 0
  raftTruncateTerm : UInt64 := 0
  raftLastIndex : UInt64 := 0
  deriving DecidableEq, Repr

def Value.setInt (i : Int64) : Value := { bytes := encodeUint64 [] i.toUInt64, tag := .int }

def Value.getInt (v : Value) : Except RaftErr Int64 :=
  if v.tag ≠ .int then .error (.notInt v.tag)
  else if v.bytes.length ≠ 8 then .error (.intSize v.bytes.length)
  else
    match decodeUint64 v.bytes with
    | .error msg => .error (.decodeInt msg)
    | .ok (_, u) => .ok u.toInt64

/-- The index stored under a key, and zero when there is none. -/
def loadIndex (eng : Engine) (key : MVCCKey) : Except RaftErr UInt64 :=
  match eng.get key with
  | none => .ok 0
  | some (.plain v) => v.getInt.map Int64.toUInt64
  | some _ => .error .unmarshal

def putIndex (eng : Engine) (key : MVCCKey) (index : UInt64) : Engine :=
  eng.put key (.plain (Value.setInt index.toInt64))

namespace RaftReplica

def loadOffsetIndex (r : RaftReplica) (eng : Engine) : Except RaftErr UInt64 :=
  loadIndex eng (raftOffsetIndexKey r.rangeID)

def loadAppliedIndex (r : RaftReplica) (eng : Engine) : Except RaftErr UInt64 :=
  loadIndex eng (raftAppliedIndexKey r.rangeID)

def loadLastIndex (r : RaftReplica) (eng : Engine) : Except RaftErr UInt64 :=
  loadIndex eng (raftLastIndexKey r.rangeID)

def setOffsetIndex (r : RaftReplica) (eng : Engine) (index : UInt64) : RaftReplica × Engine :=
  ({ r with raftOffsetIndex := index }, putIndex eng (raftOffsetIndexKey r.rangeID) index)

def setAppliedIndex (r : RaftReplica) (eng : Engine) (index : UInt64) : RaftReplica × Engine :=
  ({ r with raftAppliedIndex := index }, putIndex eng (raftAppliedIndexKey r.rangeID) index)

def setLastIndex (r : RaftReplica) (eng : Engine) (index : UInt64) : RaftReplica × Engine :=
  ({ r with raftLastIndex := index }, putIndex eng (raftLastIndexKey r.rangeID) index)

-- An index that cannot be read counts as zero: the errors are dropped.
def loadRaftPrevIndex (r : RaftReplica) (eng : Engine) : RaftReplica :=
  { r with
    raftAppliedIndex := (r.loadAppliedIndex eng).toOption.getD 0
    raftOffsetIndex := (r.loadOffsetIndex eng).toOption.getD 0
    raftLastIndex := (r.loadLastIndex eng).toOption.getD 0 }

/-- A replica that starts on what the engine holds; the truncated index and term are kept in
memory only. -/
def newReplica (rd : RangeDescriptor) (eng : Engine) : RaftReplica :=
  loadRaftPrevIndex { rangeID := rd.rangeID, rangeDesc := rd } eng

/-! ### The log -/

/-- The loop of `Entries`, from where the cursor stands. -/
def entriesLoop (ekey : MVCCKey) : List (MVCCKey × Entry) → Except RaftErr (List RaftEntry)
  | [] => .ok []
  | (k, e) :: l =>
    if ekey < k then .ok []
    else
      match e with
      | .raftEntry ent => (entriesLoop ekey l).map (ent :: ·)
      | _ => .error .unmarshal

-- `maxSize` is only printed: a size limit is not applied.
def entries (r : RaftReplica) (eng : Engine) (lo hi maxSize : UInt64) :
    Except RaftErr (List RaftEntry) := do
  if lo ≥ hi then throw (.invalidParameter r.rangeID lo hi maxSize)
  if lo < r.raftOffsetIndex then throw .compacted
  let skey := raftLogKey r.rangeID lo
  let ekey := raftLogKey r.rangeID (hi - 1)
  let ents ← entriesLoop ekey (eng.seek skey)
  let expectedi := lo + UInt64.ofNat ents.length
  if (ents.length : Int) = (hi.toInt64 - lo.toInt64).toInt then return ents
  match ents with
  | [] => return []
  | ent :: _ =>
    if ent.index > lo then throw .compacted
    if r.raftLastIndex ≤ expectedi then throw .unavailable
    throw (.gap lo hi expectedi)

def term (r : RaftReplica) (eng : Engine) (i : UInt64) : Except RaftErr UInt64 := do
  let ents ← r.entries eng i (i + 1) 0
  match ents with
  | [] => if i = r.raftTruncateIndex then return r.raftTruncateTerm else return 0
  | ent :: _ => return ent.term

def firstIndex (r : RaftReplica) : UInt64 := r.raftOffsetIndex + 1

def lastIndex (r : RaftReplica) : UInt64 := r.raftLastIndex

def putEntries (id : RangeID) : List RaftEntry → Engine → Engine
  | [], eng => eng
  | ent :: l, eng => putEntries id l (eng.put (raftLogKey id ent.index) (.raftEntry ent))

/-- Clears the keys of `n` indexes from `i` on. -/
def clearEntries [Backend] (id : RangeID) : ℕ → UInt64 → Engine → Engine
  | 0, _, eng => eng
  | n + 1, i, eng => clearEntries id n (i + 1) (erase eng (raftLogKey id i))

def append [Backend] (r : RaftReplica) (eng : Engine) (ents : List RaftEntry) :
    RaftReplica × Engine :=
  match ents.getLast? with
  | none => (r, eng)
  | some ent =>
    let last := ent.index
    let eng := putEntries r.rangeID ents eng
    -- the loop goes from `last + 1` up to the last index so far
    let eng := clearEntries r.rangeID (r.raftLastIndex.toNat + 1 - (last + 1).toNat) (last + 1) eng
    r.setLastIndex eng last

-- The batch holds on to the keys it is given until it is committed.
def compact [Backend] (r : RaftReplica) (eng : Engine) (index : UInt64) :
    Except RaftErr (RaftReplica × Engine) :=
  if index ≤ r.raftOffsetIndex then .error (.noNeedCompact r.rangeID r.raftOffsetIndex index)
  else if index > r.raftLastIndex then .error (.outOfLastIndex r.rangeID r.raftLastIndex)
  else
    let skey := raftLogKey r.rangeID 0
    let ekey := raftLogKey r.rangeID index
    let batch := (scan eng skey ekey 0).foldl (fun batch kv => batch.clear kv.1) eng
    .ok (r.setOffsetIndex batch index)

end RaftReplica

/-- A raft snapshot: the pairs of the range, and the index and term they stand for. -/
structure RaftSnapshot where
  data : List (MVCCKey × Entry)
  index : UInt64
  term : UInt64

def RaftReplica.applySnapshot [Backend] (r : RaftReplica) (s : RaftSnapshot) (st : St) :
    RaftReplica × St :=
  let eng := r.clear st.eng
  let stats := s.data.foldl (fun stats kv => stats.update 0 0 kv.1.length kv.2.size) {}
  let eng := s.data.foldl (fun eng kv => eng.put kv.1 kv.2) eng
  let (r, eng) := r.setLastIndex eng s.index
  let (r, eng) := r.setAppliedIndex eng s.index
  ({ r with raftTruncateIndex := s.index, raftTruncateTerm := s.term }, ⟨eng, stats⟩)

end Ancestor
