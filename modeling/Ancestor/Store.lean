import Ancestor.Lib.Hoare
import Ancestor.Replica

/-!
The store of a node (`storage/store.go`, `storage/rebalance.go`): its replicas by range ID,
and the dispatch of a request to a replica (`storage/replica_command.go`).

All replicas of a store share one engine. A request is routed by range ID, and the replica
checks one key, the one of the header, against its own descriptor.
-/

namespace Ancestor

open Hoare

structure Replica where
  rangeID : RangeID
  rangeDesc : RangeDescriptor
  deriving DecidableEq, Repr

structure GetSplitKeyRequest extends RequestHeader where
  splitSize : Int64
  deriving DecidableEq, Repr

structure GetSplitKeyResponse where
  splitKey : Key
  rangeBytes : Int64
  rangeCount : Int64
  deriving DecidableEq, Repr

structure SplitRequest extends RequestHeader where
  newRangeID : RangeID
  splitKey : Key
  newRangeBytes : Int64 := 0
  newRangeCount : Int64 := 0
  deriving DecidableEq, Repr

structure UpdateRangeRequest extends RequestHeader where
  rangeDescriptor : RangeDescriptor
  deriving DecidableEq, Repr

inductive Request
  | get (req : RequestHeader)
  | put (req : PutRequest)
  | beginTransaction (req : RequestHeader)
  | endTransaction (req : EndTransactionRequest)
  | heartbeatTransaction (req : RequestHeader)
  | resolveIntent (req : ResolveIntentRequest)
  | pushTransaction (req : PushTransactionRequest)
  | getSplitKey (req : GetSplitKeyRequest)
  | split (req : SplitRequest)
  | updateRange (req : UpdateRangeRequest)
  deriving DecidableEq, Repr

def Request.header : Request → RequestHeader
  | .get req | .beginTransaction req | .heartbeatTransaction req => req
  | .put req => req.toRequestHeader
  | .endTransaction req => req.toRequestHeader
  | .resolveIntent req => req.toRequestHeader
  | .pushTransaction req => req.toRequestHeader
  | .getSplitKey req => req.toRequestHeader
  | .split req => req.toRequestHeader
  | .updateRange req => req.toRequestHeader

inductive Response
  | get (value : Value)
  | put
  | beginTransaction (txn : Transaction)
  | endTransaction
  | heartbeatTransaction (txn : Option Transaction)
  | resolveIntent
  | pushTransaction (pusheeTxn : Transaction)
  | getSplitKey (resp : GetSplitKeyResponse)
  | split (rangeDescriptors : List RangeDescriptor)
  | updateRange
  deriving DecidableEq, Repr

/-- The engine, the replicas and the statistics of the ranges. A replica stands under its own
range ID. A range without statistics counts as empty: `addRangeStats` makes them together
with the replica. -/
structure Store where
  eng : Engine
  replicas : RangeID → Option Replica
  rangeStats : RangeID → RangeStats
  keyed : ∀ id r, replicas id = some r → r.rangeID = id

def Store.empty : Store := ⟨.empty, fun _ => none, fun _ => {}, fun _ _ h => by cases h⟩

def Store.add (s : Store) (r : Replica) : Store :=
  { s with
    replicas := Function.update s.replicas r.rangeID (some r)
    keyed := fun id r' h => by
      by_cases hid : id = r.rangeID
      · subst hid
        rw [Function.update_self] at h
        cases h
        rfl
      · rw [Function.update_of_ne hid] at h
        exact s.keyed id r' h }

abbrev StoreM := EStateM Err Store

/-! ### The keys of a range -/

def Replica.validateKeyRange (r : Replica) (key : Key) : Bool :=
  let skey := r.rangeDesc.startKey
  let ekey := r.rangeDesc.endKey
  if ekey.length = 0 ∧ skey ≤ key then true
  else if skey ≤ key ∧ key < ekey then true
  else false

/-- The keys of a range: an empty end key stands for no bound. -/
def RangeDescriptor.Covers (d : RangeDescriptor) (k : Key) : Prop :=
  d.startKey ≤ k ∧ (d.endKey = [] ∨ k < d.endKey)

lemma validateKeyRange_iff (r : Replica) (k : Key) :
    r.validateKeyRange k = true ↔ r.rangeDesc.Covers k := by
  unfold Replica.validateKeyRange RangeDescriptor.Covers
  by_cases h : r.rangeDesc.endKey = []
  · simp [h]
  · simp [h]

/-- The entries `getSplitKey` walks over. -/
def Replica.splitEntries (r : Replica) (eng : Engine) : List (MVCCKey × Entry) :=
  let start := newMVCCKey r.rangeDesc.startKey
  let stop := newMVCCKey r.rangeDesc.endKey
  (eng.seek start).takeWhile fun e => decide (e.1 < stop)

/-- The walk of `getSplitKey`: the first key above the start at which the size is reached. -/
def splitKeyLoop (startKey : Key) (splitSize : Int64) :
    List (MVCCKey × Entry) → Int64 → Int64 → Except Err GetSplitKeyResponse
  | [], _, _ => .error .noSplitKey
  | (k, e) :: l, rangeBytes, rangeCount =>
    let rangeBytes := rangeBytes + Int64.ofNat (k.length + e.size)
    let rangeCount := rangeCount + 1
    if rangeBytes ≥ splitSize then
      match decodeMVCCKey k with
      | .error msg => .error (.decodeKey msg)
      | .ok (key, _, _) =>
        if key ≤ startKey then splitKeyLoop startKey splitSize l rangeBytes rangeCount
        else .ok ⟨key, rangeBytes, rangeCount⟩
    else splitKeyLoop startKey splitSize l rangeBytes rangeCount

def Replica.getSplitKey (r : Replica) (eng : Engine) (req : GetSplitKeyRequest) :
    Except Err GetSplitKeyResponse :=
  splitKeyLoop r.rangeDesc.startKey req.splitSize (r.splitEntries eng) 0 0

/-! ### Replicas of a store -/

def getReplica (id : RangeID) : StoreM Replica := do
  match (← getThe Store).replicas id with
  | some r => return r
  | none => throw (.rangeNotFound id)

def addReplica (r : Replica) : StoreM Unit := modify (·.add r)

def createReplica (rd : RangeDescriptor) : StoreM Unit := do
  if ((← getThe Store).replicas rd.rangeID).isSome then throw (.replicaExists rd.rangeID)
  addReplica ⟨rd.rangeID, rd⟩

def fillRangeStats (s : Store) (oldID newID : RangeID) (newBytes newCount : Int64) : Store :=
  let rangeStats := Function.update s.rangeStats newID ⟨newBytes, newCount⟩
  let old := rangeStats oldID
  let post : RangeStats := ⟨old.totalBytes - newBytes, old.totalCount - newCount⟩
  { s with rangeStats := Function.update rangeStats oldID post }

def makeRangeDesc (id : RangeID) (skey ekey : Key) (replicas : List ReplicaDescriptor) :
    RangeDescriptor := ⟨id, skey, ekey, replicas⟩

-- The descriptor of `r` itself stays: only the response carries the one it is to take.
def Replica.split (r : Replica) (req : SplitRequest) : StoreM (List RangeDescriptor) := do
  let oldID := r.rangeID
  let newID := req.newRangeID
  if oldID ≠ req.rangeID ∨ ¬ r.validateKeyRange req.splitKey then throw .invalidRange
  let prevDesc := makeRangeDesc newID r.rangeDesc.startKey req.splitKey r.rangeDesc.replicas
  let postDesc := makeRangeDesc oldID req.splitKey r.rangeDesc.endKey r.rangeDesc.replicas
  createReplica prevDesc
  modify (fillRangeStats · oldID newID req.newRangeBytes req.newRangeCount)
  return [prevDesc, postDesc]

def Replica.updateRange (r : Replica) (req : UpdateRangeRequest) : StoreM Unit := do
  if r.rangeID ≠ req.rangeID then throw .invalidRange
  addReplica { r with rangeDesc := req.rangeDescriptor }

/-! ### Requests -/

def Replica.keep (r : Replica) (s : Store) (st : St) : Store :=
  { s with eng := st.eng, rangeStats := Function.update s.rangeStats r.rangeID st.stats }

/-- A command on the engine, with the statistics of the replica's range. -/
def Replica.onEngine {α : Type} (r : Replica) (m : M α) : StoreM α := fun s =>
  match m ⟨s.eng, s.rangeStats r.rangeID⟩ with
  | .ok a st => .ok a (r.keep s st)
  | .error e st => .error e (r.keep s st)

section Dispatch

variable [Backend]

/-- The switch of `executeCmd` on the kind of request. -/
def Replica.dispatch (r : Replica) (request : Request) : StoreM Response := do
  match request with
  | .get req => return .get (← r.onEngine (M.read (Ancestor.get · req)))
  | .put req => r.onEngine (Ancestor.put req); return .put
  | .beginTransaction req =>
    r.onEngine (Ancestor.beginTransaction req.txn)
    return .beginTransaction req.txn
  | .endTransaction req =>
    r.onEngine (Ancestor.endTransaction req.txn req.commit)
    return .endTransaction
  | .heartbeatTransaction req =>
    return .heartbeatTransaction (← r.onEngine (Ancestor.heartbeatTransaction req.txn))
  | .resolveIntent req => r.onEngine (Ancestor.resolveIntent req); return .resolveIntent
  | .pushTransaction req =>
    return .pushTransaction (← r.onEngine (Ancestor.pushTransaction req))
  | .getSplitKey req => return .getSplitKey (← r.onEngine (M.read (r.getSplitKey · req)))
  | .split req => return .split (← r.split req)
  | .updateRange req => r.updateRange req; return .updateRange

def Replica.executeCmd (r : Replica) (request : Request) : StoreM Response := do
  if ¬ r.validateKeyRange request.header.key then throw (.rangeNotFound r.rangeID)
  r.dispatch request

lemma executeCmd_run (r : Replica) (request : Request) (s : Store) :
    r.executeCmd request s =
      if r.validateKeyRange request.header.key then r.dispatch request s
      else .error (.rangeNotFound r.rangeID) s := by
  unfold Replica.executeCmd
  by_cases hkey : r.validateKeyRange request.header.key
  · rw [if_neg (not_not.mpr hkey), if_pos hkey]
  · rw [if_pos hkey, if_neg hkey]
    rfl

/-- `Store.Send` for one request, on the node that leads the range. -/
def send (id : RangeID) (request : Request) : StoreM Response := do
  let r ← getReplica id
  r.executeCmd request

end Dispatch

/-! ### Running a request -/

section Run

variable {α : Type} {r : Replica} {s : Store} {id : RangeID} {m : M α} {a : α} {st : St}

lemma getReplica_run (s : Store) (id : RangeID) :
    getReplica id s = match s.replicas id with
      | some r => .ok r s
      | none => .error (.rangeNotFound id) s := by
  simp only [getReplica, getThe, bind, EStateM.bind, MonadStateOf.get, EStateM.get]
  cases s.replicas id <;> rfl

lemma getReplica_ok (hr : s.replicas id = some r) : getReplica id s = .ok r s := by
  rw [getReplica_run, hr]

lemma keep_self (r : Replica) (s : Store) : r.keep s ⟨s.eng, s.rangeStats r.rangeID⟩ = s := by
  simp [Replica.keep]

lemma onEngine_ok (h : m ⟨s.eng, s.rangeStats r.rangeID⟩ = .ok a st) :
    r.onEngine m s = .ok a (r.keep s st) := by
  rw [Replica.onEngine, h]

/-- A request on a key of the replica runs its command. -/
lemma executeCmd_ok [Backend] {request : Request} {f : α → Response}
    (hkey : r.validateKeyRange request.header.key = true)
    (hcmd : r.dispatch request = f <$> r.onEngine m)
    (hm : m ⟨s.eng, s.rangeStats r.rangeID⟩ = .ok a st) :
    r.executeCmd request s = .ok (f a) (r.keep s st) := by
  rw [executeCmd_run, if_pos hkey, hcmd, map_eq_pure_bind, run_bind_ok (onEngine_ok hm)]
  rfl

end Run

end Ancestor
