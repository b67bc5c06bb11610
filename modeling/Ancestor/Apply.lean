import Ancestor.RaftLog

/-!
The application of committed commands (`storage/replica.go`, `meta/batch.go`).

A command is a batch of requests. A request that meets the intent of another transaction is
tried once more when the batch names that transaction: its intent is resolved first. The
applied index is persisted after the batch, by a write of its own.
-/

namespace Ancestor

open Hoare

variable [Backend]

/-- A batch of requests, with the transactions its client has pushed. -/
structure BatchRequest where
  req : List Request
  pusheeTxn : List Transaction := []
  deriving DecidableEq, Repr

/-- Whether the intent in the way has been resolved; a panic of the resolution is passed on. -/
def Replica.preprocessWriteIntentError (r : Replica) (pusheeTxn : List Transaction) (err : Err) :
    StoreM Bool := do
  match err with
  | .writeIntent wiErr =>
    match pusheeTxn.find? fun t => wiErr.intent.txn.id = t.id with
    | some t =>
      r.onEngine (mvccResolveWriteIntent [⟨wiErr.intent.key, t⟩])
      return true
    | none => return false
  | _ => return false

/-- One request of a batch, as `processRaftCommand` executes it. -/
def Replica.applyRequest (r : Replica) (pusheeTxn : List Transaction) (request : Request) :
    StoreM Response := do
  match ← outcome (r.executeCmd request) with
  | .ok resp => return resp
  | .error err =>
    if ← r.preprocessWriteIntentError pusheeTxn err then r.executeCmd request
    else throw err

/-- `BatchRequest.Execute`: the first error ends the batch. -/
def execute (id : RangeID) (pusheeTxn : List Transaction) : List Request → StoreM (List Response)
  | [] => return []
  | request :: l => do
    let resp ← (← getReplica id).applyRequest pusheeTxn request
    return resp :: (← execute id pusheeTxn l)

section Run

variable {r : Replica} {pusheeTxn : List Transaction} {request : Request} {resp : Response}
  {s s' s'' : Store}

lemma applyRequest_ok (h : r.executeCmd request s = .ok resp s') :
    r.applyRequest pusheeTxn request s = .ok resp s' := by
  have hout : outcome (r.executeCmd request) s = .ok (.ok resp) s' := by rw [outcome, h]
  rw [Replica.applyRequest, run_bind_ok hout]
  rfl

lemma execute_cons_ok {id : RangeID} {l : List Request} {resps : List Response}
    (hr : s.replicas id = some r) (h : r.executeCmd request s = .ok resp s')
    (hl : execute id pusheeTxn l s' = .ok resps s'') :
    execute id pusheeTxn (request :: l) s = .ok (resp :: resps) s'' := by
  rw [execute, run_bind_ok (getReplica_ok hr), run_bind_ok (applyRequest_ok h), run_bind_ok hl]
  rfl

end Run

/-! ### The keys that are written -/

section Codes

variable {α : Type} {r : Replica} {id : RangeID}

omit [Backend] in
/-- A command that touches encoded keys only writes under encoded keys. -/
lemma Only.encoded {m : M α} (h : Only codes m) {s : St} (hs : Encoded s.eng) :
    Encoded (stateAfter m s).eng := by
  intro e he
  by_cases hcode : e.1 ∈ codes
  · exact hcode
  · rw [OrdMap.mem_entries_iff, h.after s hcode, ← OrdMap.mem_entries_iff] at he
    exact hs e he

omit [Backend] in
lemma keeps_onEngine {m : M α} (h : Only codes m) :
    Keeps (fun s : Store => Encoded s.eng) (r.onEngine m) := by
  intro s hs
  have hm := h.encoded (s := ⟨s.eng, s.rangeStats r.rangeID⟩) hs
  unfold stateAfter at hm
  unfold Replica.onEngine
  cases hrun : m ⟨s.eng, s.rangeStats r.rangeID⟩ <;> rw [hrun] at hm <;> exact hm

omit [Backend] in
lemma keeps_createReplica (rd : RangeDescriptor) :
    Keeps (fun s : Store => Encoded s.eng) (createReplica rd) := by
  intro s hs
  rw [createReplica, run_bind_get]
  split_ifs <;> exact hs

lemma keeps_dispatch (request : Request) :
    Keeps (fun s : Store => Encoded s.eng) (r.dispatch request) := by
  cases request with
  | get req => exact (keeps_onEngine (only_read _)).bind fun _ => keeps_pure _
  | put req =>
    exact (keeps_onEngine ((only_put req).mono (entryKeys_subset_codes _))).bind
      fun _ => keeps_pure _
  | beginTransaction req =>
    exact (keeps_onEngine ((only_record _ _ _).mono (entryKeys_subset_codes _))).bind
      fun _ => keeps_pure _
  | endTransaction req =>
    have hend : Only codes (endTransaction req.txn req.commit) :=
      (only_record { req.txn with status := _ } _ _).mono (entryKeys_subset_codes _)
    exact (keeps_onEngine hend).bind fun _ => keeps_pure _
  | heartbeatTransaction req =>
    have hbeat := (only_heartbeatTransaction req.txn).mono (metaKey_subset _)
    exact (keeps_onEngine (hbeat.mono (entryKeys_subset_codes _))).bind fun _ => keeps_pure _
  | resolveIntent req =>
    exact (keeps_onEngine (only_mvccResolveWriteIntent _)).bind fun _ => keeps_pure _
  | pushTransaction req =>
    exact (keeps_onEngine (only_processPushTransaction _ _ _ _)).bind fun _ => keeps_pure _
  | getSplitKey req => exact (keeps_onEngine (only_read _)).bind fun _ => keeps_pure _
  | split req =>
    refine Keeps.bind ?_ fun _ => keeps_pure _
    have hrest := (keeps_createReplica (makeRangeDesc req.newRangeID r.rangeDesc.startKey
      req.splitKey r.rangeDesc.replicas)).bind fun _ => Keeps.bind
        (keeps_modify (f := (fillRangeStats · r.rangeID req.newRangeID req.newRangeBytes
          req.newRangeCount)) fun _ h => h) fun _ =>
        keeps_pure [makeRangeDesc req.newRangeID r.rangeDesc.startKey req.splitKey
          r.rangeDesc.replicas, makeRangeDesc r.rangeID req.splitKey r.rangeDesc.endKey
          r.rangeDesc.replicas]
    unfold Replica.split
    simp only
    split_ifs
    · exact (keeps_throw _).bind fun _ => hrest
    · exact hrest
  | updateRange req =>
    refine Keeps.bind ?_ fun _ => keeps_pure _
    unfold Replica.updateRange
    split_ifs
    · exact (keeps_throw _).bind fun _ => keeps_modify fun _ h => h
    · exact keeps_modify fun _ h => h

lemma keeps_executeCmd (request : Request) :
    Keeps (fun s : Store => Encoded s.eng) (r.executeCmd request) := by
  intro s hs
  rw [executeCmd_run]
  split_ifs
  · exact keeps_dispatch request s hs
  · exact hs

lemma keeps_applyRequest (pusheeTxn : List Transaction) (request : Request) :
    Keeps (fun s : Store => Encoded s.eng) (r.applyRequest pusheeTxn request) := by
  refine (keeps_executeCmd request).outcome.bind fun res => ?_
  cases res with
  | ok resp => exact keeps_pure _
  | error err =>
    refine Keeps.bind ?_ fun resolved => ?_
    · unfold Replica.preprocessWriteIntentError
      cases err
      case writeIntent wiErr =>
        simp only
        cases pusheeTxn.find? fun t => wiErr.intent.txn.id = t.id with
        | none => exact keeps_pure _
        | some t =>
          exact (keeps_onEngine (only_mvccResolveWriteIntent _)).bind fun _ => keeps_pure _
      all_goals exact keeps_pure _
    · cases resolved
      · exact keeps_throw _
      · exact keeps_executeCmd request

/-- **Requests write under encoded keys.** -/
lemma keeps_request (pusheeTxn : List Transaction) (request : Request) :
    Keeps (fun s : Store => Encoded s.eng)
      (do (← getReplica id).applyRequest pusheeTxn request) := by
  refine Keeps.bind (fun s hs => ?_) fun r => keeps_applyRequest pusheeTxn request
  rw [getReplica_run]
  cases s.replicas id <;> exact hs

end Codes

/-- A committed entry of the log that holds a command with writes. -/
structure RaftCommand extends BatchRequest where
  index : UInt64
  deriving DecidableEq, Repr

-- The replies go to the client; what is left behind is the state.
def processRaftCommand (r : RaftReplica) (s : Store) (cmd : RaftCommand) : RaftReplica × Store :=
  let s := stateAfter (execute r.rangeID cmd.pusheeTxn cmd.req) s
  let (r, eng) := r.setAppliedIndex s.eng cmd.index
  (r, { s with eng })

end Ancestor
