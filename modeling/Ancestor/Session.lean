import Ancestor.Apply
import Ancestor.NodeRequest
import Ancestor.Scan
import Ancestor.SystemRange

/-!
A transaction of the client and its iterators (`client/txn.go`, `client/snapshot.go`,
`client/batch.go`, `client/iter.go`).

Writes are buffered on the client until an iterator is wanted or the transaction commits; then
they go to their ranges in batches. An iterator fetches two rows at a time and keeps one: the
other one, or the end of the range, is where it goes on.

All ranges are on one engine here, as in a store, and every node is reached.
-/

namespace Ancestor.Client

open Hoare

/-! ### Closures that assign -/

section Assign

variable {W α β : Type}

/-- A program beside a variable it does not touch. -/
def beside (m : CM W α) : CM (W × β) α := fun (w, v) =>
  match m w with
  | .ok a w => .ok a (w, v)
  | .error e w => .error e (w, v)

lemma beside_ok {m : CM W α} {w w' : W} {a : α} {v : β} (h : m w = .ok a w') :
    beside m (w, v) = .ok a (w', v) := by
  rw [beside, h]

/-- A closure that assigns its result to a variable of its caller. -/
def assign (m : CM W α) : CM (W × Option α) Unit := fun (w, v) =>
  match m w with
  | .ok a w => .ok () (w, some a)
  | .error e w => .error e (w, v)

def Base.beside (b : Base W) : Base (W × β) where
  getRangeDescFromCache key := Client.beside (b.getRangeDescFromCache key)
  clearRangeCache := Client.beside b.clearRangeCache
  getNodeConn id := Client.beside (b.getNodeConn id)
  isStop := Client.beside b.isStop

/-- `doNodeRequest` with a closure that assigns, and what the variable holds then. -/
def requestNode (b : Base W) (key : Key) (call : NodeID → RangeDescriptor → CM W α) :
    CM W (Option α) := fun w =>
  match doNodeRequest b.beside key (fun id rd => assign (call id rd)) (w, none) with
  | .ok _ (w, v) => .ok v w
  | .error e (w, _) => .error e w

variable {b : Base W} {key : Key} {call : NodeID → RangeDescriptor → CM W α}
  {w w₁ w₂ w₃ : W} {rd : RangeDesc} {r : ReplicaDescriptor}

/-- Without a descriptor there is no attempt. -/
lemma requestNode_unlocated {e : Error} (hrd : b.getRangeDescFromCache key w = .error e w₁) :
    requestNode b key call w = .error e.trace w₁ := by
  have hcache : b.beside.getRangeDescFromCache key (w, (none : Option α)) =
      .error e (w₁, none) := by
    simp only [Base.beside, beside, hrd]
  rw [requestNode, doNodeRequest, run_bind_error (traced_error hcache)]

variable (hrd : b.getRangeDescFromCache key w = .ok rd w₁)
  (hrep : rd.desc.replicas[rd.leaderIndex]? = some r)
  (hconn : b.getNodeConn r.nodeID w₁ = .ok () w₂)

include hrd hrep hconn

lemma requestNode_ok {a : α} (hcall : call r.nodeID rd.desc w₂ = .ok a w₃) :
    requestNode b key call w = .ok (some a) w₃ := by
  have hrun : doNodeRequest b.beside key (fun id rd => assign (call id rd)) (w, none) =
      .ok (rd.setLeaderNodeIdx rd.leaderIndex) (w₃, some a) :=
    doNodeRequest_ok (beside_ok hrd) hrep (beside_ok hconn) (by rw [assign, hcall])
  rw [requestNode, hrun]

lemma requestNode_notExist {e : Error} {k : Key}
    (hcall : call r.nodeID rd.desc w₂ = .error e w₃) (he : e.cause = .notExist k)
    (hstop : b.isStop w₃ = .ok false w₃) :
    requestNode b key call w = .error e.trace w₃ := by
  have hrun : doNodeRequest b.beside key (fun id rd => assign (call id rd)) (w, none) =
      .error e.trace (w₃, none) :=
    doNodeRequest_notExist (beside_ok hrd) hrep (beside_ok hconn) (by rw [assign, hcall]) he
      (beside_ok hstop)
  rw [requestNode, hrun]

lemma requestNode_refresh {e : Error} {rangeID : RangeID} {w₄ w₅ w₆ w₇ : W} {rd' : RangeDesc}
    {r' : ReplicaDescriptor} {a : α} (hcall : call r.nodeID rd.desc w₂ = .error e w₃)
    (he : e.cause = .node (.rangeNotFound rangeID)) (hstop : b.isStop w₃ = .ok false w₃)
    (hclear : b.clearRangeCache w₃ = .ok () w₄)
    (hrd' : b.getRangeDescFromCache key w₄ = .ok rd' w₅)
    (hrep' : rd'.desc.replicas[rd'.leaderIndex]? = some r')
    (hconn' : b.getNodeConn r'.nodeID w₅ = .ok () w₆)
    (hcall' : call r'.nodeID rd'.desc w₆ = .ok a w₇) :
    requestNode b key call w = .ok (some a) w₇ := by
  have hfail : assign (call r.nodeID rd.desc) (w₂, none) = .error e (w₃, none) := by
    rw [assign, hcall]
  have hrun : doNodeRequest b.beside key (fun id rd => assign (call id rd)) (w, none) =
      .ok (rd'.setLeaderNodeIdx rd'.leaderIndex) (w₇, some a) :=
    doNodeRequest_refresh (beside_ok hrd) hrep (beside_ok hconn) hfail he (beside_ok hstop)
      (beside_ok hclear) (beside_ok hrd') hrep' (beside_ok hconn')
      (by rw [assign, hcall'])
  rw [requestNode, hrun]

end Assign

section Rule

variable {W α β : Type} {P : W → Prop} {D : RangeDescriptor → Prop} {G : Error → Prop}
  {b : Base W} {key : Key} {call : NodeID → RangeDescriptor → CM W α}

lemma triple_beside {m : CM W α} {R : α → W → Prop} {E : Error → W → Prop} (h : Triple P m R E) :
    Triple (fun x : W × β => P x.1) (beside m) (fun a x => R a x.1) fun e x => E e x.1 := by
  rintro ⟨w, v⟩ hw
  have hm := h w hw
  unfold beside
  cases hrun : m w <;> simpa only [hrun] using hm

lemma Base.Supports.beside (h : b.Supports key P D G) :
    (b.beside : Base (W × β)).Supports key (fun x => P x.1) D G where
  cache := triple_beside h.cache
  clear := triple_beside h.clear
  conn id := triple_beside (h.conn id)
  stop := triple_beside h.stop
  replicas := h.replicas
  trace := h.trace
  retries := h.retries
  stopped := h.stopped

/-- **A request that succeeds ends as its call does**, whichever attempt it was. -/
theorem triple_requestNode (h : b.Supports key P D G) {R : α → W → Prop}
    (hcall : ∀ id rd, D rd → Triple P (call id rd) R fun e w => G e ∧ P w) :
    Triple P (requestNode b key call) (fun v w => ∃ a, v = some a ∧ R a w)
      fun e w => G e ∧ P w := by
  have hassign : ∀ id rd, D rd → Triple (fun x : W × Option α => P x.1) (assign (call id rd))
      (fun _ x => ∃ a, x.2 = some a ∧ R a x.1) fun e x => G e ∧ P x.1 := by
    rintro id rd hrd ⟨w, v⟩ hw
    have hm := hcall id rd hrd w hw
    simp only [assign]
    cases hrun : call id rd w with
    | ok a w' =>
      rw [hrun] at hm
      exact ⟨a, rfl, hm⟩
    | error e w' => simpa only [hrun] using hm
  intro w hw
  have hrun := triple_doNodeRequest h.beside hassign (w, none) hw
  unfold requestNode
  generalize doNodeRequest b.beside key (fun id rd => assign (call id rd)) (w, none) = r at hrun
  cases r <;> exact hrun

end Rule

/-! ### The state of a session -/

/-- The key of the engine for a key of the user. -/
def userKey (k : Key) : Key := newKey [userPrefix, k]

/-- In the buffer `none` is the nil of a deletion. -/
structure DbTxn where
  txn : Transaction
  dirty : Bool := false
  hasBegin : Bool := false
  kvCache : OrdMap Key (Option Bytes) := .empty

/-- `ver` is the version of a snapshot, `now` what the oracle has answered. -/
def newTransaction (name : String) (id : Bytes) (now : Timestamp) (ver : Option Timestamp)
    (priority : Int32) : DbTxn :=
  let timestamp :=
    match ver with
    | some ver => if ver.less now then ver else now
    | none => now
  { txn :=
      { name, id := newKey [txnPrefix, id], priority, timestamp
        lastHeartbeat := timestamp.wallTime } }

structure Session where
  dbTxn : DbTxn
  rangeCache : RangeDescriptorCache := {}
  store : Store

/-- The ranges the placement driver knows, the tree of the cache, and the descriptors that a clear
of the cache leaves: it deletes from the tree while it walks over it. -/
structure Env where
  pd : Ancestor.RangeDescriptorCache
  tree : IntervalTree := .byStart
  left : RangeDescriptor → Bool := fun _ => false

def modifyTxn (f : DbTxn → DbTxn) : CM Session Unit := modify fun w => { w with dbTxn := f w.dbTxn }

def ofCache {W α : Type} : Except CacheError α → CM W α
  | .ok a => return a
  | .error .notFound => throw ⟨.lookup, false⟩
  | .error (.panic _ _) => throw ⟨.panic "start key greater than or equal to end key", false⟩

def getRangeDescFromCache (env : Env) (key : Key) : CM Session RangeDesc := do
  match (← getThe Session).rangeCache.lookup key with
  | .error .notFound =>
    match env.pd.lookup key with
    | none => throw ⟨.lookup, true⟩
    | some rd =>
      let rangeCache ← ofCache ((← getThe Session).rangeCache.add env.tree rd)
      modify ({ · with rangeCache })
      return { desc := ← ofCache (rangeCache.lookup key) }
  | found => return { desc := ← ofCache found }

def base (env : Env) : Base Session where
  getRangeDescFromCache := getRangeDescFromCache env
  clearRangeCache := modify fun w => { w with rangeCache := ⟨w.rangeCache.tree.filter env.left⟩ }
  getNodeConn _ := return
  isStop := return false

/-- A request that the store answers, and its reply as `runWithResult` takes it. -/
def ask {α : Type} (m : StoreM α) : CM Session α := fun w =>
  match m w.store with
  | .ok a store => .ok a { w with store }
  | .error e store =>
    -- the reply is an error, and `runWithResult` throws
    (do runWithResult (.answer (some e)); throw ⟨.node e, true⟩ : CM Session α) { w with store }

/-- A read that was aborted is tried again with a higher priority. -/
def raisePriority {α : Type} (m : CM Session α) : CM Session α := fun w =>
  match m w with
  | .ok a w => .ok a w
  | .error e w =>
    match e.cause with
    | .node (.transactionAborted _) =>
      .error ⟨.node .readPriority, false⟩
        { w with dbTxn.txn.priority := w.dbTxn.txn.priority + 1 }
    | _ => .error e w

/-! ### Writes -/

def maxBatchPutSize : ℕ := 1000

/-- The puts of one range; `key` is the first of their keys. -/
structure PutBatch where
  key : Key
  rangeID : RangeID
  req : List PutRequest
  deriving DecidableEq, Repr

def putRequest (txn : Transaction) (rangeID : RangeID) (key : Key) (v : Option Bytes) :
    PutRequest :=
  { key, timestamp := txn.timestamp, rangeID, txn, value := { bytes := v.getD [] } }

/-- Adds a put to the batch of its range, which is made when there is none. -/
def addPut (req : PutRequest) : List PutBatch → List PutBatch
  | [] => [⟨req.key, req.rangeID, [req]⟩]
  | breq :: l =>
    if breq.rangeID = req.rangeID then { breq with req := breq.req ++ [req] } :: l
    else breq :: addPut req l

/-- What Go leaves open: the order in which the batches are taken from their map, and what of the
buffer is left by `Clear`, which deletes from the tree while it walks over it. -/
structure Choice where
  order : List PutBatch → List PutBatch
  perm : ∀ l, (order l).Perm l
  left : Key → Bool

/-- The slices of at most `n` elements; `fuel` bounds their number. -/
def slices {α : Type} (n : ℕ) : ℕ → List α → List (List α)
  | 0, _ => []
  | _, [] => []
  | fuel + 1, l => l.take n :: slices n fuel (l.drop n)

section Writes

variable [Backend] (env : Env)

def beginTransaction : CM Session Unit := do
  let txn := (← getThe Session).dbTxn.txn
  let _ ← requestNode (base env) txn.id fun _ rd => ask (send rd.rangeID
    (.beginTransaction { key := txn.id, timestamp := txn.timestamp, rangeID := rd.rangeID, txn }))

/-- A turn of the walk over the buffer. -/
def addWrite (txn : Transaction) (breqs : List PutBatch) (e : Key × Option Bytes) :
    CM Session (List PutBatch) := do
  let rd ← getRangeDescFromCache env e.1
  return addPut (putRequest txn rd.desc.rangeID e.1 e.2) breqs

def createBatchPutRequest : CM Session (List PutBatch) := do
  let dbTxn := (← getThe Session).dbTxn
  dbTxn.kvCache.entries.foldlM (addWrite env dbTxn.txn) []

/-- One batch to its range; an aborted transaction has to be run again. -/
def putBatch (breq : PutBatch) : CM Session Unit := fun w =>
  match requestNode (base env) breq.key
    (fun _ _ => ask (execute breq.rangeID [] (breq.req.map .put))) w with
  | .ok _ w => .ok () w
  | .error e w =>
    match e.cause with
    | .node (.transactionAborted txn) =>
      .error ⟨.needRetry (some (.transactionAborted txn)), true⟩ w
    | _ => .error e.trace w

def splitBatchPutRequest (breqs : List PutBatch) : CM Session Unit :=
  breqs.forM fun breq =>
    (slices maxBatchPutSize breq.req.length breq.req).forM fun req => putBatch env { breq with req }

/-- The first part of `doPutData`. -/
def ensureBegun : CM Session Unit := do
  if (← getThe Session).dbTxn.hasBegin then return
  else
    traced (beginTransaction env)
    modifyTxn ({ · with hasBegin := true })

def doPutData (choice : Choice) : CM Session Unit := do
  ensureBegun env
  if (← getThe Session).dbTxn.kvCache.entries.length = 0 then return
  else
    let breqs ← traced (createBatchPutRequest env)
    traced (splitBatchPutRequest env (choice.order breqs))
    modifyTxn fun t => { t with kvCache := t.kvCache.filter choice.left }

end Writes

def set (k : Key) (v : Bytes) : CM Session Unit := do
  if v.length = 0 then throw ⟨.invalidValue, true⟩
  else
    modifyTxn fun t =>
      { t with dirty := true, kvCache := t.kvCache.put (userKey k) (some v) }

def delete (k : Key) : CM Session Unit :=
  modifyTxn fun t =>
    { t with dirty := true, kvCache := t.kvCache.put (userKey k) none }

/-! ### Reads -/

def parseBatchGetResponse {W : Type} : List Response → CM W (List Value)
  | [] => return []
  | .get value :: rs => return value :: (← parseBatchGetResponse rs)
  | _ :: _ => throw ⟨.invalidResponse, true⟩

/-- The closure of `snapshot.Get`. The key in the answer is that of the request. -/
def readRange [Backend] (k : Key) (rd : RangeDescriptor) : CM Session Bytes := do
  let txn := (← getThe Session).dbTxn.txn
  let rs ← traced (raisePriority (ask (execute rd.rangeID [] [.get
    { key := userKey k, timestamp := txn.timestamp, rangeID := rd.rangeID, txn }])))
  match ← traced (parseBatchGetResponse rs) with
  | [] => throw ⟨.panic "index out of range", false⟩
  | value :: _ =>
    if value.bytes.length = 0 then throw ⟨.notExist k, true⟩
    else return value.bytes

section Reads

variable [Backend] (env : Env)

def snapshotGet (k : Key) : CM Session Bytes := do
  if k.length = 0 then throw ⟨.invalidKey, false⟩
  else
    let val ← requestNode (base env) (userKey k) fun _ rd => readRange k rd
    return val.getD []

def get (k : Key) : CM Session Bytes := do
  let key := userKey k
  match (← getThe Session).dbTxn.kvCache.get key with
  | some none => throw ⟨.notExist key, true⟩
  | some (some v) => return v
  | none => snapshotGet env k

end Reads

/-! ### Iterators -/

def seekScanSize : Int64 := 2

structure ScanRequest extends RequestHeader where
  endKey : Key
  maxResults : Int64
  deriving DecidableEq, Repr

/-- `Store.Send` for a scan. -/
def sendScan (id : RangeID) (req : ScanRequest) : StoreM (List KeyValue) := do
  let r ← getReplica id
  if ¬ r.validateKeyRange req.key then throw (.rangeNotFound r.rangeID)
  r.onEngine (M.read (scanInternal · req.key req.endKey req.txn req.timestamp req.maxResults false))

structure Iter where
  key : Key
  result : Option KeyValue := none
  scanKey : Key
  deriving DecidableEq, Repr

def newIter (key : Key) : Iter :=
  { key := userKey key, scanKey := userKey key }

section Iterators

variable [Backend] (env : Env)

/-- The closure of `scanMutilRange`: the range it has asked, and the rows. -/
def scanRange (scanKey : Key) (rd : RangeDescriptor) :
    CM Session (RangeDescriptor × List KeyValue) := do
  let txn := (← getThe Session).dbTxn.txn
  let kv ← raisePriority (ask (sendScan rd.rangeID
    { key := scanKey, timestamp := txn.timestamp, rangeID := rd.rangeID, txn, endKey := rd.endKey,
      maxResults := seekScanSize }))
  return (rd, kv)

/-- The loop goes from range to range until one has rows. It has no bound in the source; here it
fails when the fuel runs out. -/
def scanMutilRange : ℕ → Key → CM Session (Option KeyValue × Key)
  | 0, _ => throw ⟨.needRetry none, false⟩
  | fuel + 1, scanKey => do
    if endPrefix.isPrefixOf scanKey then return (none, [])
    let val ← traced (requestNode (base env) scanKey fun _ rd => scanRange scanKey rd)
    let (currRD, kv) := val.getD (⟨0, [], [], []⟩, [])
    match kv with
    | [] => scanMutilRange fuel currRD.endKey
    | [row] => return (some row, currRD.endKey)
    | row :: row' :: _ => return (some row, row'.key)

/-- Each turn of the loop passes a range. -/
def Env.turns : ℕ := env.pd.cache.entries.length + 1

-- An error is logged and not returned; a panic is no error.
def Iter.next (it : Iter) : CM Session Iter := fun w =>
  match scanMutilRange env env.turns it.scanKey w with
  | .ok (result, scanKey) w => .ok { it with result, scanKey } w
  | .error e w =>
    match e.cause with
    | .panic _ => .error e w
    | _ => .ok { it with result := none, scanKey := [] } w

def Iter.valid (it : Iter) : Bool := it.result.isSome

/-- `Key` and `Value` of an iterator that is valid. -/
def Iter.row (it : Iter) : Option (Key × Bytes) :=
  it.result.map fun row => (row.key.drop userPrefix.length, row.value.bytes)

def seek (k : Key) (choice : Choice) : CM Session Iter := do
  if k.length = 0 then throw ⟨.invalidKey, false⟩
  else
    traced (doPutData env choice)
    (newIter k).next env

end Iterators

end Ancestor.Client
