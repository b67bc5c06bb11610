import Ancestor.BoundedCache
import Ancestor.LeaderIndex
import Ancestor.Session

/-!
Reading many keys at once (`BatchGet` of `client/snapshot.go`).

The keys are in a map, with an empty value as long as there is no answer. In every round the keys
without an answer go to their ranges in batches. A batch whose range is not found is skipped, its
keys come again in the next round. An answer with a value is stored, and a key without a value is
deleted from the map.
-/

namespace Ancestor.Client

open Hoare
open UnorderedCache (Walk)

/-! ### Reads -/

/-- What the reads of a snapshot need, in a world `W`. `gets` is the batch of the keys as a node
answers it, with none for an answer to another request; `raise` is the higher priority of a read
that was aborted. -/
structure Reads (W : Type) where
  base : Base W
  gets : RangeID → List Key → CM W (List (Option KeyValue))
  raise : W → W

abbrev Vals := AList fun _ : Key => Bytes

/-- The gets of one range; `key` is the first of their keys. -/
structure GetBatch where
  key : Key
  rangeID : RangeID
  keys : List Key
  deriving DecidableEq, Repr

/-- Adds a get to the batch of its range, which is made when there is none. -/
def addGet (rangeID : RangeID) (key : Key) : List GetBatch → List GetBatch
  | [] => [⟨key, rangeID, [key]⟩]
  | breq :: l =>
    if breq.rangeID = rangeID then { breq with keys := breq.keys ++ [key] } :: l
    else breq :: addGet rangeID key l

/-- The orders in which a round walks over its two maps. -/
structure Orders where
  vals : Walk Key
  breqs : Walk GetBatch

/-- The key without its prefix. -/
def stripped (key : Key) : Key := key.drop userPrefix.length

namespace Reads

section Parse

variable {W : Type}

def parseBatchGetResponse : List (Option KeyValue) → CM W (List KeyValue)
  | [] => return []
  | none :: _ => throw ⟨.invalidResponse, true⟩
  | some kv :: rs => return { kv with key := stripped kv.key } :: (← parseBatchGetResponse rs)

end Parse

variable {W : Type} (r : Reads W)

/-- A turn of the walk over the map. -/
def addRead (vals : Vals) (breqs : List GetBatch) (k : Key) : CM W (List GetBatch) := do
  if ((vals.lookup k).getD []).length ≠ 0 then return breqs
  else
    let rd ← traced (r.base.getRangeDescFromCache (userKey k))
    return addGet rd.desc.rangeID (userKey k) breqs

def createBatchRequests (order : Walk Key) (vals : Vals) : CM W (List GetBatch) :=
  (order.order vals.keys).foldlM (r.addRead vals) []

/-- The closure of `doBatchGet`. -/
def readBatch (breq : GetBatch) : CM W (List KeyValue) := fun w =>
  match r.gets breq.rangeID breq.keys w with
  | .ok rs w => traced (parseBatchGetResponse rs) w
  | .error e w =>
    match e.cause with
    | .node (.transactionAborted _) => .error ⟨.node .readPriority, false⟩ (r.raise w)
    | .node (.rangeNotFound _) => (do r.base.clearRangeCache; return []) w
    | _ => .error e.trace w

/-- The loop over the batches. -/
def sendBatches : List GetBatch → List KeyValue → CM W (List KeyValue)
  | [], kvs => return kvs
  | breq :: l, kvs => do
    let val ← traced (requestNode r.base breq.key fun _ _ => r.readBatch breq)
    sendBatches l (kvs ++ val.getD [])

/-- None stands for `io.EOF`. -/
def doBatchGet (orders : Orders) (vals : Vals) : CM W (Option (List KeyValue)) := do
  let breqs ← traced (r.createBatchRequests orders.vals vals)
  if breqs.length = 0 then return none
  else return some (← r.sendBatches (orders.breqs.order breqs) [])

def store (vals : Vals) (kv : KeyValue) : Vals :=
  if kv.value.bytes.length = 0 then vals.erase kv.key else vals.insert kv.key kv.value.bytes

/-- The loop has no bound in the source; here it fails when the fuel runs out. -/
def batchGetLoop (orders : ℕ → Orders) : ℕ → ℕ → Vals → CM W Vals
  | 0, _, _ => throw ⟨.needRetry none, false⟩
  | fuel + 1, round, vals => do
    match ← traced (r.doBatchGet (orders round) vals) with
    | none => return vals
    | some kvs => batchGetLoop orders fuel (round + 1) (kvs.foldl store vals)

def batchGet (orders : ℕ → Orders) (fuel : ℕ) (keys : List Key) : CM W Vals :=
  r.batchGetLoop orders fuel 0 (keys.foldl (fun vals k => vals.insert k []) ∅)

/-! ### One key -/

def raised {α : Type} (m : CM W α) : CM W α := fun w =>
  match m w with
  | .ok a w => .ok a w
  | .error e w =>
    match e.cause with
    | .node (.transactionAborted _) => .error ⟨.node .readPriority, false⟩ (r.raise w)
    | _ => .error e w

/-- The closure of `snapshot.Get`. -/
def readRange (k : Key) (rd : RangeDescriptor) : CM W Bytes := do
  let rs ← traced (r.raised (r.gets rd.rangeID [userKey k]))
  match ← traced (parseBatchGetResponse rs) with
  | [] => throw ⟨.panic "index out of range", false⟩
  | kv :: _ =>
    if kv.value.bytes.length = 0 then throw ⟨.notExist kv.key, true⟩
    else return kv.value.bytes

def snapshotGet (k : Key) : CM W Bytes := do
  if k.length = 0 then throw ⟨.invalidKey, false⟩
  else
    let val ← requestNode r.base (userKey k) fun _ rd => r.readRange k rd
    return val.getD []

end Reads

/-! ### The reads of a session -/

def getRequest (txn : Transaction) (rangeID : RangeID) (key : Key) : Request :=
  .get { key, timestamp := txn.timestamp, rangeID, txn }

/-- The answer to a get has the key of the request. -/
def answerOf (key : Key) : Response → Option KeyValue
  | .get value => some { key, value }
  | _ => none

def Env.reads [Backend] (env : Env) : Reads Session where
  base := Client.base env
  gets rangeID keys := do
    let txn := (← getThe Session).dbTxn.txn
    let rs ← ask (execute rangeID [] (keys.map (getRequest txn rangeID)))
    return List.zipWith answerOf keys rs
  raise w := { w with dbTxn.txn.priority := w.dbTxn.txn.priority + 1 }

lemma stripped_userKey (k : Key) : stripped (userKey k) = k := by
  simp [stripped, userKey, newKey, userPrefix]

lemma userKey_injective : Function.Injective userKey := fun k k' h => by
  rw [← stripped_userKey k, h, stripped_userKey]

section Session

variable {env : Env} {id : RangeID} {request : Request} {rs : List Response} {w w' : Session}

lemma execute_one [Backend] {s s' : Store} (h : execute id [] [request] s = .ok rs s') :
    ∃ resp, rs = [resp] := by
  rw [execute] at h
  cases hr : getReplica id s with
  | error e t =>
    rw [run_bind_error hr] at h
    cases h
  | ok r t =>
    rw [run_bind_ok hr] at h
    cases ha : r.applyRequest [] request t with
    | error e u =>
      rw [run_bind_error ha] at h
      cases h
    | ok resp u =>
      rw [run_bind_ok ha] at h
      cases h
      exact ⟨resp, rfl⟩

lemma ask_one [Backend] (h : ask (execute id [] [request]) w = .ok rs w') :
    ∃ resp, rs = [resp] := by
  unfold ask at h
  cases hx : execute id [] [request] w.store with
  | ok rs' s' =>
    rw [hx] at h
    cases h
    exact execute_one hx
  | error e s' =>
    rw [hx] at h
    obtain ⟨e', he⟩ := runWithResult_error e { w with store := s' }
    simp only [run_bind_error he] at h
    cases h

lemma gets_error [Backend] {key : Key} {e : Error}
    (h : ask (execute id [] [getRequest w.dbTxn.txn id key]) w = .error e w') :
    env.reads.gets id [key] w = .error e w' := by
  simp only [Env.reads, List.map_cons, List.map_nil]
  rw [run_bind_get, run_bind_error h]

lemma gets_ok [Backend] {key : Key} {resp : Response}
    (h : ask (execute id [] [getRequest w.dbTxn.txn id key]) w = .ok [resp] w') :
    env.reads.gets id [key] w = .ok [answerOf key resp] w' := by
  simp only [Env.reads, List.map_cons, List.map_nil]
  rw [run_bind_get, run_bind_ok h]
  rfl

lemma raised_session [Backend] {α : Type} (env : Env) (m : CM Session α) :
    env.reads.raised m = raisePriority m := by
  funext w
  simp only [Reads.raised, raisePriority]
  cases m w with
  | ok a w' => rfl
  | error e w' =>
    obtain ⟨cause, trace⟩ := e
    cases cause with
    | node err => cases err <;> rfl
    | _ => rfl

/-- What an error becomes does not depend on what was asked for. -/
lemma raisePriority_error {α β : Type} {m : CM Session α} {m' : CM Session β} {e : Error}
    (h : m w = .error e w') (h' : m' w = .error e w') :
    ∃ e' w'', raisePriority m w = .error e' w'' ∧ raisePriority m' w = .error e' w'' := by
  simp only [raisePriority, h, h']
  obtain ⟨cause, trace⟩ := e
  cases cause with
  | node err => cases err <;> exact ⟨_, _, rfl, rfl⟩
  | _ => exact ⟨_, _, rfl, rfl⟩

/-- The closures of the two reads do the same. -/
lemma reads_readRange [Backend] (env : Env) (k : Key) (rd : RangeDescriptor) :
    env.reads.readRange k rd = readRange k rd := by
  funext w
  rw [Reads.readRange, raised_session, readRange, run_bind_get]
  cases hm : ask (execute rd.rangeID [] [getRequest w.dbTxn.txn rd.rangeID (userKey k)]) w with
  | error e w' =>
    have hgets : env.reads.gets rd.rangeID [userKey k] w = .error e w' := gets_error hm
    obtain ⟨e', w'', hraise, hraise'⟩ := raisePriority_error hgets hm
    rw [run_bind_error (traced_error hraise)]
    exact (run_bind_error (traced_error hraise')).symm
  | ok rs w' =>
    obtain ⟨resp, rfl⟩ := ask_one hm
    have hraise : raisePriority (env.reads.gets rd.rangeID [userKey k]) w =
        .ok [answerOf (userKey k) resp] w' := by
      rw [raisePriority, gets_ok hm]
    have hraise' : raisePriority (ask (execute rd.rangeID []
        [getRequest w.dbTxn.txn rd.rangeID (userKey k)])) w = .ok [resp] w' := by
      rw [raisePriority, hm]
    rw [run_bind_ok (traced_ok hraise)]
    refine Eq.trans ?_ (run_bind_ok (traced_ok hraise')).symm
    cases resp with
    | get value =>
      show (if value.bytes.length = 0 then throw ⟨.notExist (stripped (userKey k)), true⟩
        else return value.bytes : CM Session Bytes) w' = _
      rw [stripped_userKey]
      rfl
    | _ => rfl

/-- **A read of a session** is the read over what the session has. -/
theorem reads_snapshotGet [Backend] (env : Env) (k : Key) :
    env.reads.snapshotGet k = snapshotGet env k := by
  rw [Reads.snapshotGet, snapshotGet]
  simp only [reads_readRange]
  rfl

end Session

end Ancestor.Client
