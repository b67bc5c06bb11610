import Ancestor.CommitOutcome
import Ancestor.OwnWrites

/-!
The end of a transaction of the client (`client/txn.go`, `client/resolve_intent.go`).

A flush notes the keys of its puts before it sends them. When the transaction has ended, the keys
of each range are handed to a worker, which sends one request to resolve the intents on them. An
error of such a request is logged and nothing more.

The pool of the noted keys stands beside the session. As long as it is there, a flush does with it
what it does without it.
-/

namespace Ancestor.Client

open Hoare

/-! ### The pool -/

/-- The keys to resolve, by range; `none` is the nil map that is left once they are sent. -/
abbrev Pool := Option (List (RangeID × List Key))

/-- The keys of a range are a map by their text: a key is in it once. -/
def addKey (id : RangeID) (key : Key) : List (RangeID × List Key) → List (RangeID × List Key)
  | [] => [(id, [key])]
  | (id', keys) :: l =>
    if id' = id then (id', if keys.contains key then keys else keys ++ [key]) :: l
    else (id', keys) :: addKey id key l

/-- The keys of all ranges. -/
def poolKeys (l : List (RangeID × List Key)) : List Key := l.flatMap Prod.snd

lemma mem_poolKeys_addKey {id : RangeID} {key k : Key} {l : List (RangeID × List Key)} :
    k ∈ poolKeys (addKey id key l) ↔ k = key ∨ k ∈ poolKeys l := by
  induction l with
  | nil => simp [addKey, poolKeys]
  | cons e l ih =>
    obtain ⟨id', keys⟩ := e
    simp only [poolKeys, List.flatMap_cons, List.mem_append] at ih ⊢
    unfold addKey
    split_ifs with hid hin
    · simp only [List.flatMap_cons, List.mem_append]
      constructor
      · exact .inr
      · rintro (rfl | h)
        · exact .inl (by simpa using hin)
        · exact h
    · simp only [List.flatMap_cons, List.mem_append, List.mem_singleton]
      tauto
    · simp only [List.flatMap_cons, List.mem_append, ih]
      tauto

/-- What Go leaves open when the intents are sent: the order in which the ranges and the keys of a
range are taken from their maps. The workers may take the tasks in another order again. -/
structure SendOrder where
  tasks : List (RangeID × List Key) → List (RangeID × List Key)
  tasks_perm : ∀ l, (tasks l).Perm l
  keys : List Key → List Key
  keys_perm : ∀ l, (keys l).Perm l

namespace Pooled

/-- `resolveIntent.add`, for the header of a put. -/
def add (req : PutRequest) : CM (Session × Pool) Unit := fun (w, pool) =>
  match pool with
  | none => .error ⟨.panic "assignment to entry in nil map", false⟩ (w, none)
  | some l => .ok () (w, some (addKey req.rangeID req.key l))

section Calls

variable (env : Env)

/-! ### Writes -/

def splitBatchPutRequest [Backend] (breqs : List PutBatch) : CM (Session × Pool) Unit :=
  breqs.forM fun breq => do
    breq.req.forM add
    beside ((slices maxBatchPutSize breq.req.length breq.req).forM fun req =>
      putBatch env { breq with req })

def doPutData [Backend] (choice : Choice) : CM (Session × Pool) Unit := do
  beside (ensureBegun env)
  if (← getThe (Session × Pool)).1.dbTxn.kvCache.entries.length = 0 then return
  else
    let breqs ← beside (traced (createBatchPutRequest env))
    traced (splitBatchPutRequest env (choice.order breqs))
    beside (modifyTxn fun t => { t with kvCache := t.kvCache.filter choice.left })

def seek [Backend] (k : Key) (choice : Choice) : CM (Session × Pool) Iter := do
  if k.length = 0 then throw ⟨.invalidKey, false⟩
  else
    traced (doPutData env choice)
    beside ((newIter k).next env)

/-! ### The end -/

/-- The task of one range: the intents are told the transaction as it has ended. -/
def resolveKeys [Backend] (txn : Transaction) : List Key → CM Session Unit
  | [] => return
  | key :: keys => do
    let _ ← requestNode (base env) key fun _ rd => ask (Ancestor.send rd.rangeID (.resolveIntent
      { key, timestamp := txn.timestamp, rangeID := rd.rangeID, txn
        intents := (key :: keys).map (⟨·, txn⟩) }))

/-- `resolveIntent.send`, with its tasks run. -/
def send [Backend] (order : SendOrder) (w : Session) : Pool → Session
  | none => w
  | some l => (order.tasks l).foldl
      (fun w task => stateAfter (resolveKeys env w.dbTxn.txn (order.keys task.2)) w) w

/-- The store that holds the record answers. -/
def answerEnd [Backend] (_ : NodeID) (req : EndTransactionRequest) (w : Session) :
    Reply × Session :=
  match Ancestor.send req.rangeID (.endTransaction req) w.store with
  | .ok _ store => (.answer none, { w with store })
  | .error e store => (.answer (some e), { w with store })

variable (now : Timestamp) (order : SendOrder)

/-- `now` is the answer of the oracle. -/
def endTransaction [Backend] (commit : Bool) : CM (Session × Pool) Unit := fun (w, pool) =>
  let (res, w) := Client.endTransaction (base env) (return now) answerEnd w.dbTxn.txn
    w.dbTxn.dirty commit w
  let w := { w with dbTxn.txn := res.txn }
  let p := if res.send then (send env order w pool, none) else (w, pool)
  match res.err with
  | none => .ok () p
  | some e => .error e p

def commit [Backend] (choice : Choice) : CM (Session × Pool) Unit := do
  if (← getThe (Session × Pool)).1.dbTxn.dirty then
    traced (doPutData env choice)
    beside (modifyTxn fun t => { t with txn.status := .committed })
    endTransaction env now order true
  else return

def rollback [Backend] : CM (Session × Pool) Unit := do
  beside (modifyTxn fun t => { t with txn.status := .aborted })
  if (← getThe (Session × Pool)).1.dbTxn.hasBegin then endTransaction env now order false
  else return

/-- `Seek` with the iterator it opens. -/
def openIter [Backend] (k : Key) (choice : Choice) : CM ((Session × Iter) × Pool) Answer :=
  fun ((w, it), pool) =>
    match seek env k choice (w, pool) with
    | .ok it (w, pool) => .ok (.row it.row) ((w, it), pool)
    | .error e (w, pool) => .error e ((w, it), pool)

/-- A call of the transaction. Only `Seek` flushes. -/
def perform [Backend] : TxnCall → CM ((Session × Iter) × Pool) Answer
  | .seek k choice => openIter env k choice
  | call => beside (Ancestor.perform env call)

def performAll [Backend] : List TxnCall → CM ((Session × Iter) × Pool) (List Answer)
  | [] => return []
  | call :: calls => do
    let answer ← perform env call
    return answer :: (← performAll calls)

end Calls

/-! ### The pool beside the session -/

section Beside

variable {env : Env} {w w' : Session} {l : List (RangeID × List Key)}

/-- The keys of a batch are added to the pool. -/
def addBatch (l : List (RangeID × List Key)) (breq : PutBatch) : List (RangeID × List Key) :=
  breq.req.foldl (fun l req => addKey req.rangeID req.key l) l

lemma forM_add (reqs : List PutRequest) :
    reqs.forM add (w, some l) =
      .ok () (w, some (reqs.foldl (fun l req => addKey req.rangeID req.key l) l)) := by
  induction reqs generalizing l with
  | nil => rfl
  | cons req reqs ih => exact ih

lemma mem_poolKeys_foldl {reqs : List PutRequest} {k : Key} :
    k ∈ poolKeys (reqs.foldl (fun l req => addKey req.rangeID req.key l) l) ↔
      k ∈ reqs.map (·.key) ∨ k ∈ poolKeys l := by
  induction reqs generalizing l with
  | nil => simp
  | cons req reqs ih =>
    rw [List.foldl_cons, ih, mem_poolKeys_addKey, List.map_cons, List.mem_cons]
    tauto

lemma mem_poolKeys_addBatches {breqs : List PutBatch} {k : Key} :
    k ∈ poolKeys (breqs.foldl addBatch l) ↔ k ∈ batchKeys breqs ∨ k ∈ poolKeys l := by
  induction breqs generalizing l with
  | nil => simp [batchKeys]
  | cons breq breqs ih =>
    rw [List.foldl_cons, ih, addBatch, mem_poolKeys_foldl]
    simp only [batchKeys, List.flatMap_cons, List.mem_append]
    tauto

/-- The batches are sent as they are without the pool, and their keys are in it. -/
lemma splitBatchPutRequest_run [Backend] {breqs : List PutBatch}
    (h : Client.splitBatchPutRequest env breqs w = .ok () w') :
    splitBatchPutRequest env breqs (w, some l) = .ok () (w', some (breqs.foldl addBatch l)) := by
  induction breqs generalizing w l with
  | nil =>
    cases h
    rfl
  | cons breq breqs ih =>
    obtain ⟨_, w₁, hone, hmore⟩ := of_bind_ok h
    show ((breq.req.forM add >>= fun _ => _) >>= fun _ => _) (w, some l) = _
    rw [run_bind_ok (Eq.trans (run_bind_ok (forM_add breq.req)) (beside_ok hone))]
    exact ih hmore

/-- A flush that succeeds: nothing but the record when the buffer is empty; otherwise the batches
of the buffer are sent, and a part of it is left. -/
lemma doPutData_cases [Backend] {txn : Transaction} (hsplit : SplitsKeys env.pd) {choice : Choice}
    {w₁ : Session} (hbegun : ensureBegun env w = .ok () w₁) (hs : Sound env txn w₁)
    (h : Client.doPutData env choice w = .ok () w') :
    (w₁.dbTxn.kvCache.entries.length = 0 ∧ w' = w₁) ∨
    (¬ w₁.dbTxn.kvCache.entries.length = 0 ∧ ∃ breqs rangeCache w₂,
      createBatchPutRequest env w₁ = .ok breqs { w₁ with rangeCache } ∧
      Cached env.pd rangeCache ∧
      (∀ breq ∈ breqs, BatchOf txn w₁.dbTxn.kvCache w₁.store.replicas breq) ∧
      (∀ k, k ∈ batchKeys breqs ↔ ∃ b, w₁.dbTxn.kvCache.get k = some b) ∧
      Client.splitBatchPutRequest env (choice.order breqs) { w₁ with rangeCache } = .ok () w₂ ∧
      w' = { w₂ with dbTxn.kvCache := w₂.dbTxn.kvCache.filter choice.left }) := by
  rw [Client.doPutData, run_bind_ok hbegun, run_bind_get] at h
  by_cases hempty : w₁.dbTxn.kvCache.entries.length = 0
  · rw [if_pos hempty] at h
    cases h
    exact .inl ⟨hempty, rfl⟩
  · rw [if_neg hempty] at h
    obtain ⟨breqs, rangeCache, hcreate, hc, hof, hkeys⟩ := createBatchPutRequest_ok hsplit hs
    rw [run_bind_ok (traced_ok hcreate)] at h
    obtain ⟨_, w₂, hsent, hleft⟩ := of_bind_ok h
    cases hleft
    refine .inr ⟨hempty, breqs, rangeCache, w₂, hcreate, hc, hof, hkeys, ?_, rfl⟩
    unfold traced at hsent
    split at hsent
    · rename_i hrun
      rw [hrun, hsent]
    · cases hsent

/-- **A flush with the pool is the flush without it**, and afterwards the pool has the keys of the
buffer. -/
theorem doPutData_run [Backend] {txn : Transaction} (hsplit : SplitsKeys env.pd) {choice : Choice}
    {w₁ : Session} (hbegun : ensureBegun env w = .ok () w₁) (hs : Sound env txn w₁)
    (h : Client.doPutData env choice w = .ok () w') :
    ∃ l', doPutData env choice (w, some l) = .ok () (w', some l') ∧
      ∀ k, k ∈ poolKeys l' ↔ (∃ b, w₁.dbTxn.kvCache.get k = some b) ∨ k ∈ poolKeys l := by
  rw [doPutData, run_bind_ok (beside_ok hbegun), run_bind_get]
  rcases doPutData_cases hsplit hbegun hs h with
    ⟨hempty, rfl⟩ | ⟨hempty, breqs, rangeCache, w₂, hcreate, -, -, hkeys, hsent, rfl⟩
  · rw [if_pos hempty]
    refine ⟨l, rfl, fun k => ?_⟩
    have hnone : w'.dbTxn.kvCache.get k = none := by
      simp [OrdMap.get, List.length_eq_zero_iff.mp hempty]
    simp [hnone]
  · rw [if_neg hempty]
    refine ⟨(choice.order breqs).foldl addBatch l, ?_, fun k => ?_⟩
    · rw [run_bind_ok (beside_ok (traced_ok hcreate)),
        run_bind_ok (traced_ok (splitBatchPutRequest_run hsent))]
      rfl
    · rw [mem_poolKeys_addBatches, ← hkeys k]
      exact or_congr_left ((choice.perm breqs).flatMap_right _).mem_iff

lemma perform_seek [Backend] {k : Key} {choice : Choice} {it it' : Iter} {pool pool' : Pool}
    (h : seek env k choice (w, pool) = .ok it' (w', pool')) :
    perform env (.seek k choice) ((w, it), pool) = .ok (.row it'.row) ((w', it'), pool') := by
  show openIter env k choice ((w, it), pool) = _
  simp only [openIter, h]

end Beside

end Pooled

end Ancestor.Client
