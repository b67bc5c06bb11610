import Ancestor.Record

/-!
The transaction protocol: clients, the oracle, and the server steps they interleave.

A client draws a start timestamp from the oracle, begins its record, reads and writes at the
start timestamp, and ends with a second timestamp from the oracle; then it has its intents
resolved at that timestamp (`client/txn.go`, `client/resolve_intent.go`). A request that
meets another transaction's intent is followed by a push and by the resolution of the intent
with the record the push returned (`storage/store.go`, `storage/replica.go`), and is then
tried again. Every server step is atomic, every step may come at any time after the one that
causes it, and a resolution may come any number of times, or never. One engine holds all
keys and records: each server step looks at one key or at one record only.

The `reads` and `writes` of a client and the list of commits record the history of the run;
no step looks at them.
-/

namespace Ancestor.Protocol

open M Hoare

variable [Backend]

def isTxnID (id : Key) : Bool := id.head? = txnPrefix.head?

def isUserKey (k : Key) : Bool := k.head? = userPrefix.head?

inductive Phase
  | running
  /-- The end request carries timestamp `ts` and is on its way. -/
  | ending (commit : Bool) (ts : Timestamp)
  | ended (commit : Bool) (ts : Timestamp)
  | failed
  deriving DecidableEq, Repr

/-- A successful read and whether it was answered from the reader's own intent. -/
structure ReadLog where
  key : Key
  bytes : Bytes
  own : Bool
  deriving DecidableEq, Repr

/-- The timestamp of `txn` is the start timestamp. -/
structure Client where
  txn : Transaction
  begun : Bool := false
  phase : Phase := .running
  reads : List ReadLog := []
  writes : List (Key × Value) := []
  deriving DecidableEq, Repr

/-- What the transaction has last written to a key. -/
def Client.wrote (c : Client) (k : Key) : Option Value :=
  (c.writes.find? fun w => decide (w.1 = k)).map Prod.snd

/-- `handed` are the records that intents are resolved with: those a push has returned, and
those of the clients whose end request has succeeded. -/
structure Sys where
  st : St := {}
  clock : Timestamp := .zero
  clients : OrdMap Key Client := .empty
  handed : List Transaction := []
  commits : List Key := []

inductive Act
  | start (id : Key) (priority : Int32) (ts : Timestamp)
  | beginTxn (id : Key)
  | get (id key : Key)
  | put (id key : Key) (value : Value)
  | push (e : WriteIntentError) (latest : Timestamp)
  | resolve (key : Key) (txn : Transaction)
  | commit (id : Key) (ts : Timestamp)
  | rollback (id : Key) (ts : Timestamp)
  | endTxn (id : Key)
  | heartbeat (id : Key) (wallTime : Int64)
  deriving DecidableEq, Repr

namespace Client

def putRequest (c : Client) (key : Key) (value : Value) : PutRequest :=
  { key, timestamp := c.txn.timestamp, txn := c.txn, value }

/-- The transaction the client ends with. -/
def endTxn (c : Client) (commit : Bool) (ts : Timestamp) : Transaction :=
  { c.txn with timestamp := ts, status := if commit then .committed else .aborted }

end Client

namespace Sys

def setClient (s : Sys) (id : Key) (c : Client) : Sys := { s with clients := s.clients.put id c }

/-- The oracle issues `ts`. -/
def Fresh (s : Sys) (ts : Timestamp) : Prop := s.clock < ts ∧ ts.Nonneg

instance (s : Sys) (ts : Timestamp) : Decidable (s.Fresh ts) := inferInstanceAs (Decidable (_ ∧ _))

/-- The write is stored, and not the deletion of what is absent. -/
def records (s : Sys) (key : Key) (value : Value) : Bool := !(cell s.st.eng key).skips value

def get (s : Sys) (id : Key) (c : Client) (key : Key) : Sys :=
  match Ancestor.get s.st.eng { key, timestamp := c.txn.timestamp, txn := c.txn } with
  | .ok v =>
    let own := (metaAt s.st.eng key).any fun m => decide (m.transactionID = id)
    s.setClient id { c with reads := ⟨key, v.bytes, own⟩ :: c.reads }
  | .error _ => s

def put (s : Sys) (id : Key) (c : Client) (key : Key) (value : Value) : Sys :=
  match Ancestor.put (c.putRequest key value) s.st with
  | .ok _ st =>
    { s with st }.setClient id
      { c with writes := if s.records key value then (key, value) :: c.writes else c.writes }
  | .error (.writeTooOld _ _) st => { s with st }.setClient id { c with phase := .failed }
  | .error _ st => { s with st }

def push (s : Sys) (e : WriteIntentError) (latest : Timestamp) : Sys :=
  let req : PushTransactionRequest :=
    { key := e.intent.txn.id, timestamp := e.pusherTxn.timestamp, txn := e.pusherTxn,
      pusheeKey := e.intent.txn.id, pushType := e.pushType, latestTimestamp := latest }
  match pushTransaction req s.st with
  | .ok txn st => { s with st, handed := txn :: s.handed }
  | .error _ st => { s with st }

def endTxn (s : Sys) (id : Key) (c : Client) (commit : Bool) (ts : Timestamp) : Sys :=
  match endTransaction (c.endTxn commit ts) commit s.st with
  | .ok _ st =>
    { s with
      st
      handed := c.endTxn commit ts :: s.handed
      commits := if commit then s.commits ++ [id] else s.commits }.setClient id
        { c with phase := .ended commit ts }
  | .error _ st => { s with st }.setClient id { c with phase := .failed }

end Sys

/-- One step; `none` when the action is not enabled. -/
def step (s : Sys) : Act → Option Sys
  | .start id priority ts =>
    if s.Fresh ts ∧ isTxnID id ∧ s.clients.get id = none then
      some ({ s with clock := ts }.setClient id
        { txn := { id, priority, timestamp := ts, lastHeartbeat := ts.wallTime } })
    else none
  | .beginTxn id => do
    let c ← s.clients.get id
    if c.phase = .running ∧ c.begun = false then
      match beginTransaction c.txn s.st with
      | .ok _ st => some ({ s with st }.setClient id { c with begun := true })
      | .error _ _ => none
    else none
  | .get id key => do
    let c ← s.clients.get id
    if c.phase = .running ∧ isUserKey key then some (s.get id c key) else none
  | .put id key value => do
    let c ← s.clients.get id
    if c.phase = .running ∧ c.begun ∧ isUserKey key then some (s.put id c key value) else none
  | .push e latest => do
    let c ← s.clients.get e.pusherTxn.id
    if e.pusherTxn.timestamp = c.txn.timestamp ∧ isTxnID e.intent.txn.id then
      some (s.push e latest)
    else none
  | .resolve key txn =>
    if txn ∈ s.handed ∧ isUserKey key then
      match mvccResolveWriteIntent [⟨key, txn⟩] s.st with
      | .ok _ st => some { s with st }
      | .error _ _ => none
    else none
  | .commit id ts => do
    let c ← s.clients.get id
    if s.Fresh ts ∧ c.phase = .running ∧ c.begun then
      some ({ s with clock := ts }.setClient id { c with phase := .ending true ts })
    else none
  | .rollback id ts => do
    let c ← s.clients.get id
    if s.Fresh ts ∧ (c.phase = .running ∨ c.phase = .failed) ∧ c.begun then
      some ({ s with clock := ts }.setClient id { c with phase := .ending false ts })
    else none
  | .endTxn id => do
    let c ← s.clients.get id
    match c.phase with
    | .ending commit ts => some (s.endTxn id c commit ts)
    | _ => none
  | .heartbeat id wallTime => do
    let c ← s.clients.get id
    if c.begun then
      let st := stateAfter (heartbeatTransaction { c.txn with lastHeartbeat := wallTime }) s.st
      some { s with st }
    else none

/-! ### Initial states and conditions on steps -/

/-- The value of `k` at or below a timestamp that is committed in the engine, as a read by
a transaction without intents gets it; nothing is the empty string. -/
def readAt (eng : Engine) (k : Key) (ts : Timestamp) : Bytes :=
  match Ancestor.get eng { key := k, timestamp := ts } with
  | .ok v => v.bytes
  | .error _ => []

/-- No transaction has run yet: the engine holds committed versions only, all of them from
before the clock. -/
structure Init (s : Sys) : Prop where
  ok : EngineOk s.st.eng
  dataKey : ∀ k, isUserKey k → DataKey s.st.eng k
  noRecord : ∀ id, isTxnID id → recAt s.st.eng id = none
  noClient : ∀ id, s.clients.get id = none
  noHanded : s.handed = []
  noCommit : s.commits = []
  clock : s.clock.Nonneg
  committed : ∀ k, isUserKey k → (metaAt s.st.eng k = none ∧ ∀ t, verAt s.st.eng k t = none) ∨
    ∃ m v, metaAt s.st.eng k = some m ∧ m.transactionID = [] ∧
      verAt s.st.eng k m.timestamp = some v ∧ (m.deleted = true → v.bytes = []) ∧
      m.timestamp ≤ s.clock ∧ ∀ t, verAt s.st.eng k t ≠ none → t ≤ m.timestamp

omit [Backend] in
lemma init_empty : Init {} where
  ok := fun x e h => by simp at h
  dataKey := fun k _ e h => by simp at h
  noRecord := fun id _ => by simp [recAt]
  noClient := fun id => by simp
  noHanded := rfl
  noCommit := rfl
  clock := by decide
  committed := fun k _ => Or.inl ⟨by simp [metaAt], fun t => by simp [verAt]⟩

/-- The timestamp of a commit that is on its way. -/
def Phase.committing : Phase → Option Timestamp
  | .ending true t => some t
  | _ => none

namespace Act

def ends : Act → Option Key
  | .endTxn id => some id
  | _ => none

/-- The transaction, the key and the value of a put. -/
def puts : Act → Option (Key × Key × Value)
  | .put id key value => some (id, key, value)
  | _ => none

def gets : Act → Option (Key × Key)
  | .get id key => some (id, key)
  | _ => none

/-- The key of an intent that is resolved with the record of an aborted transaction, and the
transaction. -/
def aborts : Act → Option (Key × Key)
  | .resolve key txn => if txn.status = .aborted then some (key, txn.id) else none
  | _ => none

end Act

/-- An end request that commits is applied while the record has not been pushed past the
timestamp the request carries. -/
def InTime (s : Sys) (a : Act) : Prop :=
  ∀ id ∈ a.ends, ∀ c ∈ s.clients.get id, ∀ r ∈ recAt s.st.eng id, r.status = .pending →
    ∀ t ∈ c.phase.committing, r.timestamp ≤ t

instance (s : Sys) (a : Act) : Decidable (InTime s a) :=
  inferInstanceAs (Decidable (∀ id ∈ a.ends, _))

/-- An intent that is removed has no older version below it. -/
def NoUncover (s : Sys) (a : Act) : Prop :=
  ∀ p ∈ a.aborts, ∀ m ∈ metaAt s.st.eng p.1, m.transactionID = p.2 →
    ∀ u < m.timestamp, verAt s.st.eng p.1 u = none

end Ancestor.Protocol
