import Ancestor.Lib.Linear
import Ancestor.PendingCmds
import Ancestor.Member

/-!
What the users of a range see of its replicas (`storage/replica.go`, `storage/store.go`,
`meta/batch.go`).

A batch that a node takes is queued, gets an id and is proposed. Once raft has committed it, every
node applies it, and the one that has it pending answers: a batch of writes after its execution, a
batch of reads by a worker, from a snapshot of the engine that is taken when the entry is applied.
Nodes fall behind, catch up by snapshots and start again in between. A snapshot is read in two
steps, and is right if the replica stands still in between.

Raft is what it promises: entries with increasing indexes, in one order for all, and a proposal is
committed once or not at all. A node stops between two commands.
-/

namespace Ancestor.Service

open Hoare Steps
open scoped List
open PendingCmds (RequestFlag RaftID isReadFlag isWriteFlag)

/-! ### Batches -/

/-- A batch, with the flag in the header of each request. -/
structure Command where
  req : List (RequestFlag × Request)
  pusheeTxn : List Transaction := []
  deriving DecidableEq, Repr

namespace Command

variable (command : Command)

def flags : RequestFlag := PendingCmds.BatchRequest.flags (command.req.map Prod.fst)

def isLeader : Bool := PendingCmds.BatchRequest.isLeader (command.req.map Prod.fst)

def isWrite : Bool := PendingCmds.BatchRequest.isWrite (command.req.map Prod.fst)

def isReadOnly : Bool := PendingCmds.BatchRequest.isReadOnly (command.req.map Prod.fst)

def requests : List Request := command.req.map Prod.snd

end Command

/-- `ResponseWithError`: the responses up to the first error. -/
structure Reply where
  resp : List Response := []
  err : Option Err := none
  deriving DecidableEq, Repr

/-- `BatchRequest.Execute`. -/
def executeBatch (exec : Request → StoreM Response) : List Request → Store → Reply × Store
  | [], s => ({}, s)
  | request :: l, s =>
    match exec request s with
    | .error e s => (⟨[], some e⟩, s)
    | .ok resp s =>
      let (reply, s) := executeBatch exec l s
      ({ reply with resp := resp :: reply.resp }, s)

/-- A request, executed by the replica as it is. -/
def executeOn [Backend] (id : RangeID) (request : Request) : StoreM Response := do
  (← getReplica id).executeCmd request

/-- A request of a committed batch of writes. -/
def applyOn [Backend] (id : RangeID) (pusheeTxn : List Transaction) (request : Request) :
    StoreM Response := do
  (← getReplica id).applyRequest pusheeTxn request

/-! ### The nodes and raft -/

/-- The commands of a node are numbered as `Send` makes them. The code does not have the number:
what it has is the channel of the command. -/
abbrev CmdID := NodeID × ℕ

structure PendingCmd where
  number : CmdID
  raftCmd : Command
  deriving DecidableEq, Repr

structure AsyncRequest where
  cmd : PendingCmd
  snapshot : Engine

structure Server where
  raft : RaftReplica
  store : Store
  /-- the number of commands that `Send` has made on the node -/
  sent : ℕ := 0
  pendingProposeChan : List PendingCmd := []
  pendingCmds : RaftID → Option PendingCmd := fun _ => none
  asyncRequestChan : List AsyncRequest := []
  /-- what `snapshot` has read before the data -/
  cut : Option (UInt64 × UInt64) := none

/-- What is proposed to raft. The number of the command is not part of the data. -/
structure RaftData where
  id : RaftID
  cmd : PendingCmd
  deriving DecidableEq, Repr

/-- A committed entry. -/
structure LogEntry extends RaftData where
  index : UInt64
  deriving DecidableEq, Repr

abbrev Event := Linear.Event CmdID Command Reply

structure System where
  nodes : NodeID → Server
  /-- the proposals that raft has taken and not committed -/
  proposals : List RaftData := []
  log : List LogEntry := []
  /-- the snapshots that have been taken -/
  snapshots : List RaftSnapshot := []
  /-- the calls and the returns so far -/
  history : List Event := []

inductive Action
  | send (node : NodeID) (breq : Command)
  /-- the id that is drawn, whether the data can be marshalled, and whether raft takes it -/
  | handleProposeCmd (node : NodeID) (id : RaftID) (marshals proposes : Bool)
  /-- raft commits one of the proposals -/
  | commit (k : ℕ) (index : UInt64)
  /-- a node applies the next entry -/
  | processRaftCommand (node : NodeID)
  /-- a worker is done with one of the requests: the workers are many -/
  | handleAsyncRequest (node : NodeID) (k : ℕ)
  /-- `snapshot` of a node reads the index and the term -/
  | readIndex (node : NodeID)
  /-- and then the data -/
  | readData (node : NodeID)
  /-- a node installs one of the snapshots -/
  | applySnapshot (node : NodeID) (k : ℕ)
  | restart (node : NodeID)
  deriving DecidableEq, Repr

/-! ### The steps -/

namespace Server

variable (srv : Server)

/-- The replica and the store, without what is pending. -/
def member : Member := { raft := srv.raft, store := srv.store, cut := srv.cut }

/-- `defer r.setAppliedIndex`. -/
def setAppliedIndex (index : UInt64) : Server :=
  let (raft, eng) := srv.raft.setAppliedIndex srv.store.eng index
  { srv with raft, store := { srv.store with eng } }

/-- A batch that is neither one of reads nor one of writes is not executed, and nobody is
answered. -/
def processRaftCommand [Backend] (id : RangeID) (e : LogEntry) : Server × List Event :=
  let cmd := srv.pendingCmds e.id
  let srv := { srv with pendingCmds := Function.update srv.pendingCmds e.id none }
  if e.cmd.raftCmd.flags = isReadFlag then
    let asyncs := cmd.toList.map (⟨·, srv.store.eng⟩)
    (setAppliedIndex { srv with asyncRequestChan := srv.asyncRequestChan ++ asyncs } e.index, [])
  else if e.cmd.raftCmd.flags = isWriteFlag then
    let (reply, store) :=
      executeBatch (applyOn id e.cmd.raftCmd.pusheeTxn) e.cmd.raftCmd.requests srv.store
    (setAppliedIndex { srv with store } e.index, cmd.toList.map (.ret ·.number reply))
  else (setAppliedIndex srv e.index, [])

/-- The worker executes the requests of the command on the snapshot. -/
def handleAsyncRequest [Backend] (id : RangeID) (ar : AsyncRequest) : Reply :=
  (executeBatch (executeOn id) ar.cmd.raftCmd.requests { srv.store with eng := ar.snapshot }).1

/-- What is only in memory is lost. -/
def restart : Server :=
  { raft := .newReplica srv.raft.rangeDesc srv.store.eng, store := srv.store, sent := srv.sent }

end Server

namespace System

variable (σ : System)

def set (node : NodeID) (srv : Server) : System :=
  { σ with nodes := Function.update σ.nodes node srv }

def emit (events : List Event) : System := { σ with history := σ.history ++ events }

/-- A leader batch is executed on the spot, and one that is neither is refused. -/
def send [Backend] (id : RangeID) (node : NodeID) (breq : Command) : System :=
  let srv := σ.nodes node
  let number := (node, srv.sent)
  if breq.isLeader then
    let (reply, store) := executeBatch (executeOn id) breq.requests srv.store
    (σ.set node { srv with store, sent := srv.sent + 1 }).emit
      [.call number breq, .ret number reply]
  else if breq.isReadOnly || breq.isWrite then
    (σ.set node { srv with
      sent := srv.sent + 1
      pendingProposeChan := srv.pendingProposeChan ++ [⟨number, breq⟩] }).emit [.call number breq]
  else σ

/-- A command whose id is pending already is dropped. One that raft does not take stays pending. -/
def handleProposeCmd (node : NodeID) (cmd : PendingCmd) (id : RaftID) (marshals proposes : Bool) :
    System :=
  let srv := σ.nodes node
  if (srv.pendingCmds id).isSome then σ
  else if !marshals then σ
  else
    let σ := σ.set node { srv with pendingCmds := Function.update srv.pendingCmds id (some cmd) }
    if proposes then { σ with proposals := σ.proposals ++ [⟨id, cmd⟩] } else σ

def step [Backend] (id : RangeID) (σ : System) : Action → Option System
  | .send node breq => some (σ.send id node breq)
  | .handleProposeCmd node raftID marshals proposes =>
    match (σ.nodes node).pendingProposeChan with
    | [] => none
    | cmd :: rest =>
      some ((σ.set node { σ.nodes node with pendingProposeChan := rest }).handleProposeCmd node cmd
        raftID marshals proposes)
  | .commit k index =>
    match σ.proposals[k]? with
    | none => none
    | some data =>
      if 0 < index ∧ ∀ e ∈ σ.log, e.index < index then
        some { σ with proposals := σ.proposals.eraseIdx k, log := σ.log ++ [⟨data, index⟩] }
      else none
  | .processRaftCommand node =>
    (σ.log.find? fun e => decide ((σ.nodes node).raft.raftAppliedIndex < e.index)).map fun e =>
      let (srv, events) := (σ.nodes node).processRaftCommand id e
      (σ.set node srv).emit events
  | .handleAsyncRequest node k =>
    let srv := σ.nodes node
    srv.asyncRequestChan[k]?.map fun ar =>
      (σ.set node { srv with asyncRequestChan := srv.asyncRequestChan.eraseIdx k }).emit
        [.ret ar.cmd.number (srv.handleAsyncRequest id ar)]
  | .readIndex node =>
    let srv := σ.nodes node
    srv.member.readIndex.toOption.map fun cut => σ.set node { srv with cut := some cut }
  | .readData node =>
    let srv := σ.nodes node
    srv.cut.map fun cut =>
      { σ.set node { srv with cut := none } with
        snapshots := σ.snapshots ++ [srv.member.readData id cut] }
  | .applySnapshot node k =>
    let srv := σ.nodes node
    σ.snapshots[k]?.bind fun snap =>
      if srv.raft.raftAppliedIndex < snap.index then
        let (raft, st) := srv.raft.applySnapshot snap ⟨srv.store.eng, srv.store.rangeStats id⟩
        some (σ.set node { srv with raft, store := raft.keep srv.store st })
      else none
  | .restart node => some (σ.set node (σ.nodes node).restart)

/-- What raft has been given: the proposals it has taken, committed or not. -/
def data : List RaftData := σ.proposals ++ σ.log.map (·.toRaftData)

end System

/-- The committed commands, in the order of the log. -/
def order (log : List LogEntry) : List (CmdID × Command) :=
  log.map fun e => (e.cmd.number, e.cmd.raftCmd)

lemma order_snoc (log : List LogEntry) (e : LogEntry) :
    order (log ++ [e]) = order log ++ [(e.cmd.number, e.cmd.raftCmd)] := by
  simp [order]

lemma emit_nil (σ : System) : σ.emit [] = σ := by simp [System.emit]

@[simp] lemma nodes_set_self (σ : System) (node : NodeID) (srv : Server) :
    (σ.set node srv).nodes node = srv := by simp [System.set]

lemma nodes_set_of_ne (σ : System) {node i : NodeID} (hi : i ≠ node) (srv : Server) :
    (σ.set node srv).nodes i = σ.nodes i := by
  simp [System.set, hi]

/-- Raft has what it has been given, committed or not. -/
lemma data_commit {σ : System} {k : ℕ} {x : RaftData} (hk : σ.proposals[k]? = some x) (i : UInt64) :
    ({ σ with proposals := σ.proposals.eraseIdx k
              log := σ.log ++ [⟨x, i⟩] } : System).data ~ σ.data := by
  obtain ⟨hlt, hget⟩ := List.getElem?_eq_some_iff.mp hk
  have herase : x :: σ.proposals.eraseIdx k ~ σ.proposals := by
    rw [← hget]
    exact List.getElem_cons_eraseIdx_perm hlt
  simp only [System.data, List.map_append, List.map_singleton]
  rw [← List.append_assoc]
  exact List.perm_append_comm.trans (herase.append_right _)

/-! ### One store without replicas -/

/-- The range as one store that executes the commands one at a time. -/
def object [Backend] (id : RangeID) (s₀ : Store) : Linear.Object Store Command Reply where
  init := s₀
  step s command :=
    if command.flags = isReadFlag then ((executeBatch (executeOn id) command.requests s).1, s)
    else if command.flags = isWriteFlag then
      executeBatch (applyOn id command.pusheeTxn) command.requests s
    else ({}, s)

/-- No intent is resolved for an aborted transaction. -/
structure Command.NoAbort (command : Command) : Prop where
  requests : ∀ request ∈ command.requests, request.NoAbort
  pusheeTxn : ∀ txn ∈ command.pusheeTxn, txn.status ≠ .aborted

/-- Not a batch for the leader alone. Reads are gets of keys in `S`, and writes are writes to keys
in `S`; where the slices of iterators are written over, none of them is an abort. -/
structure Command.Valid [Backend] (S : Set Key) (command : Command) : Prop where
  leader : command.isLeader = false
  reads : command.flags = isReadFlag → ∀ request ∈ command.requests,
    ∃ req : RequestHeader, request = .get req ∧ req.key ∈ S
  writes : command.flags = isWriteFlag → ∀ request ∈ command.requests, request.OnKeys S
  aborts : Backend.Copies ∨ command.NoAbort

/-- A node has a command pending under the id, or raft has been given one. -/
def System.InUse (σ : System) (id : RaftID) : Prop :=
  (∃ node cmd, (σ.nodes node).pendingCmds id = some cmd) ∨ ∃ x ∈ σ.data, x.id = id

/-- A replica stands still between the two reads of its snapshot. -/
def StandsStill (σ : System) : Action → Prop
  | .processRaftCommand node | .applySnapshot node _ => (σ.nodes node).cut = none
  | _ => True

instance (σ : System) (a : Action) : Decidable (StandsStill σ a) := by
  cases a <;> unfold StandsStill <;> infer_instance

/-- Commands are valid, an id that is drawn is not in use, and snapshots are installed on an engine
that does what it says. -/
def Clean [Backend] (S : Set Key) (σ : System) : Action → Prop
  | .send _ breq => breq.Valid S
  | .handleProposeCmd _ id _ _ => ¬ σ.InUse id
  | .applySnapshot _ _ => Backend.Documented
  | _ => True

def Action.Installs : Action → Prop
  | .applySnapshot _ _ => True
  | _ => False

/-- The id that is drawn. -/
def Action.drawn : Action → Option RaftID
  | .handleProposeCmd _ id _ _ => some id
  | _ => none

section Ids

variable {σ : System} {d : RangeDescriptor} {s₀ : Store} {node : NodeID} {srv : Server}

/-- Nodes that have applied nothing and have nothing to do. -/
structure System.Fresh (d : RangeDescriptor) (s₀ : Store) (σ : System) : Prop where
  proposals : σ.proposals = []
  log : σ.log = []
  history : σ.history = []
  snapshots : σ.snapshots = []
  members : ∀ i, (σ.nodes i).member.Fresh d s₀
  idle : ∀ i, (σ.nodes i).pendingProposeChan = [] ∧ (σ.nodes i).asyncRequestChan = [] ∧
    ∀ id, (σ.nodes i).pendingCmds id = none

lemma System.Fresh.data_nil (h : σ.Fresh d s₀) : σ.data = [] := by
  rw [System.data, h.proposals, h.log]
  rfl

lemma System.Fresh.free (h : σ.Fresh d s₀) (id : RaftID) : ¬ σ.InUse id := by
  rintro (⟨node, cmd, hcmd⟩ | ⟨x, hx, -⟩)
  · rw [(h.idle node).2.2 id] at hcmd
    cases hcmd
  · rw [h.data_nil] at hx
    cases hx

lemma inUse_set {id : RaftID} (h : (σ.set node srv).InUse id)
    (hsrv : ∀ cmd, srv.pendingCmds id = some cmd →
      ∃ cmd, (σ.nodes node).pendingCmds id = some cmd) :
    σ.InUse id := by
  rcases h with ⟨i, cmd, hcmd⟩ | hdata
  · by_cases hi : i = node
    · subst hi
      rw [nodes_set_self] at hcmd
      obtain ⟨cmd, hcmd⟩ := hsrv cmd hcmd
      exact .inl ⟨i, cmd, hcmd⟩
    · rw [nodes_set_of_ne σ hi] at hcmd
      exact .inl ⟨i, cmd, hcmd⟩
  · exact .inr hdata

end Ids

/-! ### Executing a batch on stores that agree -/

section Batch

variable {S : Set Key} {I J : Set RangeID} {eng eng' : Engine} {id : RangeID} {s t : Store}
  {exec : Request → StoreM Response} {l : List Request}

/-- A get of a key the engines agree on finds the same. -/
lemma get_agree (h : AgreeOn S eng eng') {req : RequestHeader} (hk : req.key ∈ S) :
    Ancestor.get eng req = Ancestor.get eng' req := by
  -- the sizes that come with a read go nowhere
  have hread : ∀ ts, (mvccGet eng req.key ts >>= fun p => pure p.1) =
      (mvccGet eng' req.key ts >>= fun p => pure p.1 : Except Err (Option Value)) := by
    intro ts
    rcases h.mvccGet hk ts with ⟨a, b, ha, hb, hsame⟩ | ⟨e, -, ha, hb⟩
    · rw [ha, hb]
      exact congrArg Except.ok hsame.1
    · rw [ha, hb]
  unfold Ancestor.get getInternal
  simp only [h.mvccGetMeta hk, hread]

lemma dispatch_get [Backend] (r : Replica) (req : RequestHeader) (s : Store) :
    r.dispatch (.get req) s = match Ancestor.get s.eng req with
      | .ok v => .ok (.get v) s
      | .error e => .error e s := by
  have hkeep := keep_self r s
  cases hget : Ancestor.get s.eng req with
  | ok v =>
    have hrun : r.onEngine (M.read (Ancestor.get · req)) s = .ok v s := by
      rw [Replica.onEngine, read_ok hget]
      exact congrArg _ hkeep
    exact run_bind_ok hrun
  | error e =>
    have hrun : r.onEngine (M.read (Ancestor.get · req)) s = .error e s := by
      rw [Replica.onEngine, read_error hget]
      exact congrArg _ hkeep
    exact run_bind_error hrun

lemma lockstep_executeOn [Backend] (hid : id ∈ I) {req : RequestHeader} (hk : req.key ∈ S) :
    Lockstep (AgreeStores S I J) (fun _ => True) (executeOn id (.get req)) := by
  refine ((paired_getReplica hid).imp (fun _ _ h => h) fun _ _ => trivial).bind ?_
  rintro r _ ⟨rfl, -⟩ s t hst
  rw [executeCmd_run, executeCmd_run]
  split_ifs
  · rw [dispatch_get, dispatch_get, get_agree hst.agree hk]
    cases Ancestor.get t.eng req with
    | ok v => exact .inl ⟨_, s, _, t, rfl, rfl, rfl, hst⟩
    | error e => exact .inr ⟨e, s, t, rfl, rfl, trivial, hst⟩
  · exact .inr ⟨_, s, t, rfl, rfl, trivial, hst⟩

lemma lockstep_applyOn [Backend] (hid : id ∈ I) {pusheeTxn : List Transaction} {request : Request}
    (h : request.Within S I) (hcopies : Backend.Copies ∨ request.NoAbort)
    (hpushee : Backend.Copies ∨ ∀ txn ∈ pusheeTxn, txn.status ≠ .aborted) :
    Lockstep (AgreeStores S I J) (IntentIn S) (applyOn id pusheeTxn request) := by
  refine (paired_getReplica hid).bind ?_
  rintro r _ ⟨rfl, -⟩
  exact lockstep_applyRequest h hcopies hpushee

/-- **A batch gives one reply on related stores**, and leaves them related. -/
lemma executeBatch_agree {R : Store → Store → Prop} {E : Err → Prop}
    (hexec : ∀ request ∈ l, Lockstep R E (exec request)) (hst : R s t) :
    (executeBatch exec l s).1 = (executeBatch exec l t).1 ∧
      R (executeBatch exec l s).2 (executeBatch exec l t).2 := by
  induction l generalizing s t with
  | nil => exact ⟨rfl, hst⟩
  | cons request l ih =>
    rcases hexec request List.mem_cons_self s t hst with
      ⟨resp, s', _, t', hs, ht, rfl, hst'⟩ | ⟨e, s', t', hs, ht, -, hst'⟩
    · obtain ⟨hreply, hleft⟩ := ih (fun q hq => hexec q (.tail _ hq)) hst'
      simp only [executeBatch, hs, ht, hreply]
      exact ⟨trivial, hleft⟩
    · simp only [executeBatch, hs, ht]
      exact ⟨trivial, hst'⟩

/-- What a batch of writes leaves behind does not depend on the responses that are kept. -/
lemma executeBatch_applyOn [Backend] (pusheeTxn : List Transaction) (l : List Request) (s : Store) :
    (executeBatch (applyOn id pusheeTxn) l s).2 = stateAfter (execute id pusheeTxn l) s := by
  induction l generalizing s with
  | nil => rfl
  | cons request l ih =>
    have hsplit : execute id pusheeTxn (request :: l) =
        applyOn id pusheeTxn request >>= fun resp => do
          return resp :: (← execute id pusheeTxn l) := by
      simp only [execute, applyOn, bind_assoc]
    rw [hsplit]
    cases hone : applyOn id pusheeTxn request s with
    | error e s' => rw [stateAfter_error (run_bind_error hone), executeBatch, hone]
    | ok resp s' =>
      rw [stateAfter_congr (run_bind_ok hone), stateAfter_bind_pure, ← ih s', executeBatch]
      simp only [hone]

/-- The applied index is not among the keys of the range. -/
lemma agree_setAppliedIndex {d : RangeDescriptor} {r : RaftReplica}
    (h : AgreeStores d.keys {d.rangeID} ∅ s t) (i : UInt64) :
    AgreeStores d.keys {d.rangeID} ∅ { s with eng := (r.setAppliedIndex s.eng i).2 } t := by
  refine ⟨⟨h.agree.encoded.put (metaKey_mem _) _, h.agree.encoded', h.agree.data, ?_, ?_⟩,
    h.replicas, h.stats⟩
  · intro k hk x hx
    have hne : x ≠ raftAppliedIndexKey r.rangeID := indexKey_ne (h.agree.data k hk) hx
    rw [← h.agree.same k hk x hx]
    exact get_putIndex_of_ne _ hne _
  · intro k hk rec hrec
    have hne : newMVCCKey k ≠ raftAppliedIndexKey r.rangeID :=
      indexKey_ne (h.agree.data k hk) (metaKey_mem k)
    refine h.agree.records k hk rec ?_
    rw [← hrec]
    exact (get_putIndex_of_ne _ hne _).symm

end Batch

/-! ### The invariant -/

section Invariant

-- the range, and the store that the replicas start from
variable [Backend] (d : RangeDescriptor) (s₀ : Store)

/-- The store without replicas, after the committed commands up to an index. -/
def storeUpTo (log : List LogEntry) (i : UInt64) : Store :=
  (object d.rangeID s₀).after (order (log.filter fun e => decide (e.index ≤ i)))

/-- A node whose replica stands where the store without replicas stands at its applied index. What
it has pending under an id is what raft has under that id, and a worker has the engine from right
before the command. -/
structure ServerOk (data : List RaftData) (log : List LogEntry) (history : List Event)
    (node : NodeID) (srv : Server) : Prop where
  replica : srv.raft.toReplica = ⟨d.rangeID, d⟩
  persisted : srv.raft.loadAppliedIndex srv.store.eng = .ok srv.raft.raftAppliedIndex
  applied : srv.raft.raftAppliedIndex = 0 ∨ ∃ e ∈ log, srv.raft.raftAppliedIndex = e.index
  agree : AgreeStores d.keys {d.rangeID} ∅ srv.store (storeUpTo d s₀ log srv.raft.raftAppliedIndex)
  nodup : (srv.pendingProposeChan.map (·.number)).Nodup
  queued : ∀ cmd ∈ srv.pendingProposeChan, cmd.number.1 = node ∧
    .call cmd.number cmd.raftCmd ∈ history ∧ ∀ x ∈ data, x.cmd.number ≠ cmd.number
  pending : ∀ id cmd, srv.pendingCmds id = some cmd → ∀ x ∈ data, x.id = id → x.cmd = cmd
  async : ∀ ar ∈ srv.asyncRequestChan, ar.cmd.raftCmd.flags = isReadFlag ∧
    ∃ l₁ l₂, order log = l₁ ++ (ar.cmd.number, ar.cmd.raftCmd) :: l₂ ∧
      AgreeOn d.keys ar.snapshot ((object d.rangeID s₀).after l₁).eng
  cut : ∀ c ∈ srv.cut, c.1 = srv.raft.raftAppliedIndex

/-- A snapshot has the data of the range as the store without replicas has it at the index. -/
structure SnapshotFits (log : List LogEntry) (snap : RaftSnapshot) : Prop where
  applied : snap.index = 0 ∨ ∃ e ∈ log, snap.index = e.index
  data : ∃ eng, snap.data = Replica.data ⟨d.rangeID, d⟩ eng ∧
    AgreeOn d.keys eng (storeUpTo d s₀ log snap.index).eng

/-- **The invariant of the service**: the log is an order that explains the history. -/
structure Ok (σ : System) : Prop where
  numbers : (σ.data.map (·.cmd.number)).Nodup
  called : ∀ x ∈ σ.data, .call x.cmd.number x.cmd.raftCmd ∈ σ.history
  sent : ∀ c command, .call c command ∈ σ.history →
    c.2 < (σ.nodes c.1).sent ∧ command.Valid d.keys
  increasing : σ.log.Pairwise fun e e' => e.index < e'.index
  explains : Linear.Linearizes (object d.rangeID s₀) σ.history (order σ.log)
  servers : ∀ node, ServerOk d s₀ σ.data σ.log σ.history node (σ.nodes node)
  snapshots : ∀ snap ∈ σ.snapshots, SnapshotFits d s₀ σ.log snap

variable {d s₀} {data data' : List RaftData} {log : List LogEntry} {history : List Event}
  {node : NodeID} {srv : Server} {σ σ' : System} {e : LogEntry} {s t : Store} {command : Command}
  {i : UInt64}

/-! #### The store without replicas -/

lemma object_read (hread : command.flags = isReadFlag) :
    (object d.rangeID s₀).step s command =
      ((executeBatch (executeOn d.rangeID) command.requests s).1, s) := if_pos hread

lemma object_write (hwrite : command.flags = isWriteFlag) :
    (object d.rangeID s₀).step s command =
      executeBatch (applyOn d.rangeID command.pusheeTxn) command.requests s := by
  have hread : command.flags ≠ isReadFlag := by rw [hwrite]; decide
  exact (if_neg hread).trans (if_pos hwrite)

lemma object_other (hread : command.flags ≠ isReadFlag) (hwrite : command.flags ≠ isWriteFlag) :
    (object d.rangeID s₀).step s command = ({}, s) :=
  (if_neg hread).trans (if_neg hwrite)

/-- The replies to reads are those of the store without replicas. -/
lemma read_reply (hvalid : command.Valid d.keys) (hread : command.flags = isReadFlag)
    (h : AgreeStores d.keys {d.rangeID} ∅ s t) :
    (executeBatch (executeOn d.rangeID) command.requests s).1 =
      ((object d.rangeID s₀).step t command).1 := by
  rw [object_read hread]
  refine (executeBatch_agree (E := fun _ => True) (fun request hreq => ?_) h).1
  obtain ⟨req, rfl, hk⟩ := hvalid.reads hread request hreq
  exact lockstep_executeOn (Set.mem_singleton _) hk

lemma write_reply (s₀ : Store) (hvalid : command.Valid d.keys)
    (hwrite : command.flags = isWriteFlag) (h : AgreeStores d.keys {d.rangeID} ∅ s t) :
    (executeBatch (applyOn d.rangeID command.pusheeTxn) command.requests s).1 =
        ((object d.rangeID s₀).step t command).1 ∧
      AgreeStores d.keys {d.rangeID} ∅
        (executeBatch (applyOn d.rangeID command.pusheeTxn) command.requests s).2
        ((object d.rangeID s₀).step t command).2 := by
  rw [object_write hwrite]
  refine executeBatch_agree (E := IntentIn d.keys) (fun request hreq => ?_) h
  exact lockstep_applyOn (Set.mem_singleton _)
    ((hvalid.writes hwrite request hreq).within {d.rangeID})
    (hvalid.aborts.imp_right fun h => h.requests request hreq)
    (hvalid.aborts.imp_right fun h => h.pusheeTxn)

/-- No command touches the replicas. -/
lemma after_replicas {l : List (CmdID × Command)} (h : ∀ x ∈ l, x.2.Valid d.keys) :
    ((object d.rangeID s₀).after l).replicas = s₀.replicas := by
  induction l using List.reverseRecOn with
  | nil => rfl
  | append_singleton l x ih =>
    have hold := ih fun y hy => h y (List.mem_append_left _ hy)
    have hvalid := h x (by simp)
    rw [Linear.Object.after_snoc]
    by_cases hread : x.2.flags = isReadFlag
    · rw [object_read hread]
      exact hold
    by_cases hwrite : x.2.flags = isWriteFlag
    · rw [object_write hwrite, executeBatch_applyOn]
      exact ((keepsReplicas_execute _ (hvalid.writes hwrite)).after _).trans hold
    · rw [object_other hread hwrite]
      exact hold

/-! #### What a node does not notice -/

/-- More events. -/
lemma ServerOk.emit (h : ServerOk d s₀ data log history node srv) (events : List Event) :
    ServerOk d s₀ data log (history ++ events) node srv :=
  { h with
    queued := fun cmd hcmd =>
      ⟨(h.queued cmd hcmd).1, List.mem_append_left _ (h.queued cmd hcmd).2.1,
        (h.queued cmd hcmd).2.2⟩ }

/-- A proposal of another command, or of one that the node has pending under that id. -/
lemma ServerOk.propose {x : RaftData} (h : ServerOk d s₀ data log history node srv)
    (hdata : ∀ y ∈ data', y ∈ data ∨ y = x)
    (hqueue : ∀ cmd ∈ srv.pendingProposeChan, x.cmd.number ≠ cmd.number)
    (hpending : ∀ cmd, srv.pendingCmds x.id = some cmd → x.cmd = cmd) :
    ServerOk d s₀ data' log history node srv :=
  { h with
    queued := fun cmd hcmd => by
      refine ⟨(h.queued cmd hcmd).1, (h.queued cmd hcmd).2.1, fun y hy => ?_⟩
      rcases hdata y hy with hy | rfl
      · exact (h.queued cmd hcmd).2.2 y hy
      · exact hqueue cmd hcmd
    pending := fun id cmd hcmd y hy hid => by
      rcases hdata y hy with hy | rfl
      · exact h.pending id cmd hcmd y hy hid
      · exact hpending cmd (hid ▸ hcmd) }

/-- An entry behind the last one changes nothing before it. -/
lemma storeUpTo_snoc (happlied : i = 0 ∨ ∃ e' ∈ log, i = e'.index) (hpos : 0 < e.index)
    (hlast : ∀ e' ∈ log, e'.index < e.index) :
    storeUpTo d s₀ (log ++ [e]) i = storeUpTo d s₀ log i := by
  have hbehind : i < e.index := by
    rcases happlied with hzero | ⟨e', he', happlied⟩
    · rwa [hzero]
    · rw [happlied]
      exact hlast e' he'
  simp [storeUpTo, hbehind]

lemma SnapshotFits.commit {snap : RaftSnapshot} (h : SnapshotFits d s₀ log snap)
    (hpos : 0 < e.index) (hlast : ∀ e' ∈ log, e'.index < e.index) :
    SnapshotFits d s₀ (log ++ [e]) snap where
  applied := h.applied.imp_right fun ⟨e', he', happlied⟩ =>
    ⟨e', List.mem_append_left _ he', happlied⟩
  data := by
    rw [storeUpTo_snoc h.applied hpos hlast]
    exact h.data

lemma ServerOk.commit (h : ServerOk d s₀ data log history node srv) (hpos : 0 < e.index)
    (hlast : ∀ e' ∈ log, e'.index < e.index) :
    ServerOk d s₀ data (log ++ [e]) history node srv :=
  { h with
    applied := by
      rcases h.applied with hzero | ⟨e', he', happlied⟩
      · exact .inl hzero
      · exact .inr ⟨e', List.mem_append_left _ he', happlied⟩
    agree := by
      rw [storeUpTo_snoc h.applied hpos hlast]
      exact h.agree
    async := fun ar har => by
      obtain ⟨hread, l₁, l₂, horder, hagree⟩ := h.async ar har
      refine ⟨hread, l₁, l₂ ++ [(e.cmd.number, e.cmd.raftCmd)], ?_, hagree⟩
      rw [order_snoc, horder]
      simp }

/-- The same data in another order. -/
lemma ServerOk.perm (h : ServerOk d s₀ data log history node srv) (hdata : data' ⊆ data) :
    ServerOk d s₀ data' log history node srv :=
  { h with
    queued := fun cmd hcmd =>
      ⟨(h.queued cmd hcmd).1, (h.queued cmd hcmd).2.1,
        fun x hx => (h.queued cmd hcmd).2.2 x (hdata hx)⟩
    pending := fun id cmd hcmd x hx => h.pending id cmd hcmd x (hdata hx) }

/-! #### The steps keep the invariant -/

lemma update_servers (h : ∀ i, ServerOk d s₀ data log history i (σ.nodes i))
    (hsrv : ServerOk d s₀ data log history node srv) (i : NodeID) :
    ServerOk d s₀ data log history i ((σ.set node srv).nodes i) := by
  by_cases hi : i = node
  · subst hi
    rwa [nodes_set_self]
  · rw [nodes_set_of_ne σ hi]
    exact h i

lemma Ok.data_valid (h : Ok d s₀ σ) {x : RaftData} (hx : x ∈ σ.data) :
    x.cmd.raftCmd.Valid d.keys := (h.sent _ _ (h.called x hx)).2

lemma Ok.entry_valid (h : Ok d s₀ σ) (he : e ∈ σ.log) : e.cmd.raftCmd.Valid d.keys :=
  h.data_valid (x := e.toRaftData) (List.mem_append_right _ (List.mem_map_of_mem he))

/-- A node whose counter stays is exchanged. -/
lemma Ok.set (h : Ok d s₀ σ) (hsrv : ServerOk d s₀ σ.data σ.log σ.history node srv)
    (hsent : (σ.nodes node).sent = srv.sent) : Ok d s₀ (σ.set node srv) where
  numbers := h.numbers
  called := h.called
  sent := fun c command hcall => by
    refine ⟨?_, (h.sent c command hcall).2⟩
    have hlt := (h.sent c command hcall).1
    by_cases hc : c.1 = node
    · rw [hc, hsent] at hlt
      rwa [hc, nodes_set_self]
    · rwa [nodes_set_of_ne σ hc]
  increasing := h.increasing
  explains := h.explains
  servers := update_servers h.servers hsrv
  snapshots := h.snapshots

/-- A command returns. -/
lemma Ok.ret {c : CmdID} {r : Reply} {l₁ l₂ : List (CmdID × Command)} (h : Ok d s₀ σ)
    (hsplit : order σ.log = l₁ ++ (c, command) :: l₂)
    (hr : r = ((object d.rangeID s₀).step ((object d.rangeID s₀).after l₁) command).1) :
    Ok d s₀ (σ.emit [.ret c r]) where
  numbers := h.numbers
  called := fun x hx => List.mem_append_left _ (h.called x hx)
  sent := fun c' command' hcall => by
    rcases List.mem_append.mp hcall with hcall | hcall
    · exact h.sent c' command' hcall
    · cases List.mem_singleton.mp hcall
  increasing := h.increasing
  explains := h.explains.ret hsplit hr
  servers := fun node => (h.servers node).emit _
  snapshots := h.snapshots

lemma Ok.send (h : Ok d s₀ σ) (hvalid : command.Valid d.keys) (node : NodeID) :
    Ok d s₀ (σ.send d.rangeID node command) := by
  unfold System.send
  simp only [hvalid.leader, Bool.false_eq_true, if_false]
  split_ifs with hsend
  swap
  · exact h
  -- a number that no call has had
  have hnew : ∀ c command', .call c command' ∈ σ.history → c ≠ (node, (σ.nodes node).sent) := by
    rintro c command' hcall rfl
    exact absurd (h.sent _ _ hcall).1 (lt_irrefl _)
  refine ⟨h.numbers, fun x hx => List.mem_append_left _ (h.called x hx), ?_, h.increasing,
    h.explains.call fun op hcall => hnew _ op hcall rfl,
    update_servers (fun i => (h.servers i).emit _) ?_, h.snapshots⟩
  · intro c command' hcall
    rcases List.mem_append.mp hcall with hcall | hcall
    · refine ⟨?_, (h.sent c command' hcall).2⟩
      have hlt := (h.sent c command' hcall).1
      by_cases hc : c.1 = node
      · rw [hc] at hlt
        rw [hc]
        simpa [System.emit] using hlt.le
      · simpa [System.emit, nodes_set_of_ne σ hc] using hlt
    · cases List.mem_singleton.mp hcall
      exact ⟨by simp [System.emit], hvalid⟩
  · have hold := (h.servers node).emit [.call (node, (σ.nodes node).sent) command]
    refine { hold with nodup := ?_, queued := fun cmd hcmd => ?_ }
    · rw [List.map_append, List.map_singleton]
      refine List.nodup_append.mpr ⟨hold.nodup, List.nodup_singleton _, ?_⟩
      rintro a ha b hb rfl
      obtain ⟨cmd, hcmd, rfl⟩ := List.mem_map.mp ha
      exact hnew _ _ ((h.servers node).queued cmd hcmd).2.1 (List.mem_singleton.mp hb)
    · rcases List.mem_append.mp hcmd with hcmd | hcmd
      · exact hold.queued cmd hcmd
      · obtain rfl := List.mem_singleton.mp hcmd
        exact ⟨rfl, List.mem_append_right _ (List.mem_singleton_self _), fun x hx =>
          hnew _ _ (h.called x hx)⟩

/-- Raft takes a command that is in nobody's queue. -/
lemma Ok.taken {x : RaftData} (h : Ok d s₀ σ)
    (hcall : .call x.cmd.number x.cmd.raftCmd ∈ σ.history)
    (hnumber : ∀ y ∈ σ.data, y.cmd.number ≠ x.cmd.number)
    (hqueue : ∀ i, ∀ cmd ∈ (σ.nodes i).pendingProposeChan, x.cmd.number ≠ cmd.number)
    (hpending : ∀ i cmd, (σ.nodes i).pendingCmds x.id = some cmd → x.cmd = cmd) :
    Ok d s₀ { σ with proposals := σ.proposals ++ [x] } := by
  have hperm : ({ σ with proposals := σ.proposals ++ [x] } : System).data ~ x :: σ.data := by
    simp only [System.data, List.append_assoc]
    exact List.perm_middle
  have hmem : ∀ y ∈ ({ σ with proposals := σ.proposals ++ [x] } : System).data,
      y ∈ σ.data ∨ y = x := fun y hy => (List.mem_cons.mp (hperm.mem_iff.mp hy)).symm
  refine ⟨?_, fun y hy => ?_, h.sent, h.increasing, h.explains, fun i =>
    (h.servers i).propose hmem (hqueue i) (hpending i), h.snapshots⟩
  · rw [(hperm.map _).nodup_iff, List.map_cons, List.nodup_cons]
    refine ⟨fun hx => ?_, h.numbers⟩
    obtain ⟨y, hy, hyx⟩ := List.mem_map.mp hx
    exact hnumber y hy hyx
  · rcases hmem y hy with hy | rfl
    · exact h.called y hy
    · exact hcall

lemma Ok.handleProposeCmd {cmd : PendingCmd} {id : RaftID} (h : Ok d s₀ σ)
    (hnode : cmd.number.1 = node) (hcall : .call cmd.number cmd.raftCmd ∈ σ.history)
    (hnumber : ∀ x ∈ σ.data, x.cmd.number ≠ cmd.number)
    (hqueue : ∀ cmd' ∈ (σ.nodes node).pendingProposeChan, cmd.number ≠ cmd'.number)
    (hfresh : ∀ i, (σ.nodes i).pendingCmds id = none) (hid : ∀ x ∈ σ.data, x.id ≠ id)
    (marshals proposes : Bool) :
    Ok d s₀ (σ.handleProposeCmd node cmd id marshals proposes) := by
  unfold System.handleProposeCmd
  simp only [hfresh node, Option.isSome_none, Bool.false_eq_true, if_false]
  have hpend : Ok d s₀ (σ.set node { σ.nodes node with
      pendingCmds := Function.update (σ.nodes node).pendingCmds id (some cmd) }) := by
    refine h.set { h.servers node with pending := fun id' cmd' hcmd' x hx hxid => ?_ } rfl
    have hne : id' ≠ id := fun hne => hid x hx (hxid.trans hne)
    have hold : (σ.nodes node).pendingCmds id' = some cmd' := by simpa [hne] using hcmd'
    exact (h.servers node).pending id' cmd' hold x hx hxid
  split_ifs with hmarshal hpropose
  · exact h
  · refine hpend.taken (x := ⟨id, cmd⟩) hcall hnumber (fun i cmd' hcmd' => ?_)
      fun i cmd' hcmd' => ?_
    · by_cases hi : i = node
      · subst hi
        rw [nodes_set_self] at hcmd'
        exact hqueue cmd' hcmd'
      · -- the queues of the other nodes have the numbers of those nodes
        rw [nodes_set_of_ne σ hi] at hcmd'
        have hother := ((h.servers i).queued cmd' hcmd').1
        exact fun heq => hi (by rw [← hother, ← heq, hnode])
    · by_cases hi : i = node
      · subst hi
        rw [nodes_set_self] at hcmd'
        simpa using hcmd'
      · rw [nodes_set_of_ne σ hi, hfresh i] at hcmd'
        cases hcmd'
  · exact hpend

lemma Ok.propose {cmd : PendingCmd} {rest : List PendingCmd} {id : RaftID} (h : Ok d s₀ σ)
    (hq : (σ.nodes node).pendingProposeChan = cmd :: rest)
    (hid : ¬ σ.InUse id) (marshals proposes : Bool) :
    Ok d s₀ ((σ.set node { σ.nodes node with pendingProposeChan := rest }).handleProposeCmd node cmd
      id marshals proposes) := by
  have hnode := h.servers node
  have hnodup := hnode.nodup
  rw [hq, List.map_cons, List.nodup_cons] at hnodup
  obtain ⟨hfirst, hcall, hnumber⟩ := hnode.queued cmd (by rw [hq]; exact List.mem_cons_self)
  have hpop : Ok d s₀ (σ.set node { σ.nodes node with pendingProposeChan := rest }) :=
    h.set { hnode with
      nodup := hnodup.2
      queued := fun cmd' hcmd' => hnode.queued cmd' (by rw [hq]; exact .tail _ hcmd') } rfl
  have hfresh : ∀ i, (σ.nodes i).pendingCmds id = none := fun i =>
    Option.eq_none_iff_forall_ne_some.mpr fun cmd hcmd => hid (.inl ⟨i, cmd, hcmd⟩)
  refine hpop.handleProposeCmd hfirst hcall hnumber (fun cmd' hcmd' heq => ?_) (fun i => ?_)
    (fun x hx hxid => hid (.inr ⟨x, hx, hxid⟩)) marshals proposes
  · rw [nodes_set_self] at hcmd'
    exact hnodup.1 (heq ▸ List.mem_map_of_mem hcmd')
  · by_cases hi : i = node
    · subst hi
      rw [nodes_set_self]
      exact hfresh i
    · rw [nodes_set_of_ne σ hi]
      exact hfresh i

/-- **Raft commits a proposal**: this is where the command takes effect. -/
lemma Ok.commit {k : ℕ} {x : RaftData} (h : Ok d s₀ σ) (hk : σ.proposals[k]? = some x)
    (hpos : 0 < i) (hlast : ∀ e ∈ σ.log, e.index < i) :
    Ok d s₀ { σ with proposals := σ.proposals.eraseIdx k, log := σ.log ++ [⟨x, i⟩] } := by
  have hperm := data_commit hk i
  have hx : x ∈ σ.data := List.mem_append_left _ (List.mem_of_getElem? hk)
  have hnew : x.cmd.number ∉ (order σ.log).map Prod.fst := by
    have hdisjoint := h.numbers
    rw [System.data, List.map_append] at hdisjoint
    intro hmem
    refine (List.disjoint_of_nodup_append hdisjoint)
      (List.mem_map_of_mem (List.mem_of_getElem? hk)) ?_
    simpa [order, Function.comp_def] using hmem
  refine ⟨(hperm.map _).nodup_iff.mpr h.numbers, fun y hy => h.called y (hperm.mem_iff.mp hy),
    h.sent, ?_, ?_, fun node => ?_, fun snap hsnap => (h.snapshots snap hsnap).commit hpos hlast⟩
  · exact List.pairwise_append.mpr ⟨h.increasing, List.pairwise_singleton _ _, fun e he e' he' => by
      rw [List.mem_singleton.mp he']
      exact hlast e he⟩
  · rw [order_snoc]
    exact h.explains.effect (h.called x hx) hnew
  · exact ((h.servers node).commit hpos hlast).perm fun y hy => hperm.mem_iff.mp hy

/-- A node has no use for a command it has answered. -/
lemma ServerOk.forget (h : ServerOk d s₀ data log history node srv) (id : RaftID) :
    ServerOk d s₀ data log history node
      { srv with pendingCmds := Function.update srv.pendingCmds id none } :=
  { h with
    pending := fun id' cmd hcmd => by
      by_cases hid : id' = id
      · simp [hid] at hcmd
      · exact h.pending id' cmd (by simpa [hid] using hcmd) }

/-- Requests for the workers. -/
lemma ServerOk.push {ars : List AsyncRequest} (h : ServerOk d s₀ data log history node srv)
    (hars : ∀ ar ∈ ars, ar.cmd.raftCmd.flags = isReadFlag ∧
      ∃ l₁ l₂, order log = l₁ ++ (ar.cmd.number, ar.cmd.raftCmd) :: l₂ ∧
        AgreeOn d.keys ar.snapshot ((object d.rangeID s₀).after l₁).eng) :
    ServerOk d s₀ data log history node
      { srv with asyncRequestChan := srv.asyncRequestChan ++ ars } :=
  { h with
    async := fun ar har => by
      rcases List.mem_append.mp har with har | har
      · exact h.async ar har
      · exact hars ar har }

/-- The replica is at the next index, on a store that has executed the command. -/
lemma ServerOk.advance (h : ServerOk d s₀ data log history node srv) (he : e ∈ log)
    (hcut : srv.cut = none)
    (hstore : AgreeStores d.keys {d.rangeID} ∅ s (storeUpTo d s₀ log e.index)) :
    ServerOk d s₀ data log history node
      (({ srv with store := s } : Server).setAppliedIndex e.index) :=
  { h with
    replica := h.replica
    persisted := loadIndex_putIndex _ _ _
    applied := .inr ⟨e, he, rfl⟩
    agree := agree_setAppliedIndex hstore e.index
    cut := fun c hc => by
      rw [show srv.cut = none from hcut] at hc
      cases hc }

/-- The command of an entry is the one that is pending under its id. -/
lemma Ok.pending_eq {cmd : PendingCmd} (h : Ok d s₀ σ) (he : e ∈ σ.log)
    (hcmd : (σ.nodes node).pendingCmds e.id = some cmd) : cmd = e.cmd :=
  ((h.servers node).pending e.id cmd hcmd e.toRaftData
    (List.mem_append_right _ (List.mem_map_of_mem he)) rfl).symm

/-- **A node applies the next entry**, and answers if it has the command pending. -/
lemma Ok.process (h : Ok d s₀ σ) (hcut : (σ.nodes node).cut = none) (hnext : σ.log.find?
      (fun e => decide ((σ.nodes node).raft.raftAppliedIndex < e.index)) = some e) :
    Ok d s₀ ((σ.set node ((σ.nodes node).processRaftCommand d.rangeID e).1).emit
      ((σ.nodes node).processRaftCommand d.rangeID e).2) := by
  obtain ⟨l₁, l₂, hlog, -, hi, hupto⟩ := next_split h.increasing hnext
  have he : e ∈ σ.log := by rw [hlog]; simp
  have hvalid := h.entry_valid he
  have hsplit : order σ.log = order l₁ ++ (e.cmd.number, e.cmd.raftCmd) :: order l₂ := by
    rw [hlog]
    simp [order]
  -- the store without replicas, before the command and after it
  have hbefore : storeUpTo d s₀ σ.log (σ.nodes node).raft.raftAppliedIndex =
      (object d.rangeID s₀).after (order l₁) := by rw [storeUpTo, hi]
  have hafter : storeUpTo d s₀ σ.log e.index = ((object d.rangeID s₀).step
      ((object d.rangeID s₀).after (order l₁)) e.cmd.raftCmd).2 := by
    rw [storeUpTo, hupto, order_snoc, Linear.Object.after_snoc]
  have hnode := h.servers node
  have hagree := hnode.agree
  rw [hbefore] at hagree
  unfold Server.processRaftCommand
  simp only
  by_cases hread : e.cmd.raftCmd.flags = isReadFlag
  · rw [if_pos hread, emit_nil]
    rw [object_read hread] at hafter
    refine h.set (((hnode.forget e.id).push fun ar har => ?_).advance he hcut
      (by rw [hafter]; exact hagree)) rfl
    -- the snapshot is from right before the command
    obtain ⟨cmd, hcmd, rfl⟩ := List.mem_map.mp har
    obtain rfl := h.pending_eq he (Option.mem_toList.mp hcmd)
    exact ⟨hread, order l₁, order l₂, hsplit, hagree.agree⟩
  by_cases hwrite : e.cmd.raftCmd.flags = isWriteFlag
  · rw [if_neg hread, if_pos hwrite]
    obtain ⟨hreply, hleft⟩ := write_reply s₀ hvalid hwrite hagree
    rw [← hafter] at hleft
    have hset := h.set ((hnode.forget e.id).advance he hcut hleft) rfl
    cases hcmd : (σ.nodes node).pendingCmds e.id with
    | none =>
      simp only [Option.toList_none, List.map_nil, emit_nil]
      exact hset
    | some cmd =>
      obtain rfl := h.pending_eq he hcmd
      exact hset.ret hsplit hreply
  · rw [if_neg hread, if_neg hwrite, emit_nil]
    rw [object_other hread hwrite] at hafter
    exact h.set ((hnode.forget e.id).advance he hcut (by rw [hafter]; exact hagree)) rfl

lemma Ok.order_valid (h : Ok d s₀ σ) {x : CmdID × Command} (hx : x ∈ order σ.log) :
    x.2.Valid d.keys := by
  obtain ⟨e, he, rfl⟩ := List.mem_map.mp hx
  exact h.entry_valid he

lemma Ok.storeUpTo_replicas (h : Ok d s₀ σ) (i : UInt64) :
    (storeUpTo d s₀ σ.log i).replicas = s₀.replicas := by
  refine after_replicas fun x hx => ?_
  obtain ⟨e, he, rfl⟩ := List.mem_map.mp hx
  exact h.entry_valid (List.mem_of_mem_filter he)

lemma Ok.node_replicas (h : Ok d s₀ σ) (node : NodeID) :
    (σ.nodes node).store.replicas d.rangeID = s₀.replicas d.rangeID := by
  rw [(h.servers node).agree.replicas _ rfl, h.storeUpTo_replicas]

/-- **A worker answers** as the store without replicas did where the command took effect. -/
lemma Ok.async {k : ℕ} {ar : AsyncRequest} (h : Ok d s₀ σ)
    (hk : (σ.nodes node).asyncRequestChan[k]? = some ar) :
    Ok d s₀ ((σ.set node { σ.nodes node with
      asyncRequestChan := (σ.nodes node).asyncRequestChan.eraseIdx k }).emit
        [.ret ar.cmd.number ((σ.nodes node).handleAsyncRequest d.rangeID ar)]) := by
  have hnode := h.servers node
  obtain ⟨hread, l₁, l₂, hsplit, hagree⟩ := hnode.async ar (List.mem_of_getElem? hk)
  have hset : Ok d s₀ (σ.set node { σ.nodes node with
      asyncRequestChan := (σ.nodes node).asyncRequestChan.eraseIdx k }) :=
    h.set { hnode with
      async := fun ar' har' => hnode.async ar' (List.mem_of_mem_eraseIdx har') } rfl
  have hvalid : ∀ x ∈ l₁ ++ (ar.cmd.number, ar.cmd.raftCmd) :: l₂, x.2.Valid d.keys :=
    fun x hx => h.order_valid (hsplit ▸ hx)
  have hstores : AgreeStores d.keys {d.rangeID} ∅
      { (σ.nodes node).store with eng := ar.snapshot } ((object d.rangeID s₀).after l₁) := by
    refine ⟨hagree, fun id hid => ?_, fun id hid => absurd hid (Set.notMem_empty id)⟩
    obtain rfl : id = d.rangeID := hid
    rw [after_replicas fun x hx => hvalid x (List.mem_append_left _ hx)]
    exact h.node_replicas node
  exact hset.ret hsplit
    (read_reply (hvalid (ar.cmd.number, ar.cmd.raftCmd) (by simp)) hread hstores)

lemma Ok.readIndex {cut : UInt64 × UInt64} (h : Ok d s₀ σ)
    (hcut : (σ.nodes node).member.readIndex.toOption = some cut) :
    Ok d s₀ (σ.set node { σ.nodes node with cut := some cut }) := by
  refine h.set { h.servers node with cut := fun c hc => ?_ } rfl
  cases hc
  exact readIndex_eq (m := (σ.nodes node).member) (h.servers node).persisted hcut

/-- **A snapshot of a replica that has stood still.** -/
lemma Ok.fits {cut : UInt64 × UInt64} (h : Ok d s₀ σ)
    (hs₀ : s₀.replicas d.rangeID = some ⟨d.rangeID, d⟩) (hcut : (σ.nodes node).cut = some cut) :
    SnapshotFits d s₀ σ.log ((σ.nodes node).member.readData d.rangeID cut) := by
  have hnode := h.servers node
  have hindex : cut.1 = (σ.nodes node).raft.raftAppliedIndex := hnode.cut cut hcut
  refine ⟨?_, (σ.nodes node).store.eng, ?_, ?_⟩
  · rw [Member.readData, hindex]
    exact hnode.applied
  · simp [Member.readData, Server.member, rangeData, (h.node_replicas node).trans hs₀]
  · rw [Member.readData, hindex]
    exact hnode.agree.agree

lemma Ok.readData {cut : UInt64 × UInt64} (h : Ok d s₀ σ)
    (hs₀ : s₀.replicas d.rangeID = some ⟨d.rangeID, d⟩) (hcut : (σ.nodes node).cut = some cut) :
    Ok d s₀ { σ.set node { σ.nodes node with cut := none } with
      snapshots := σ.snapshots ++ [(σ.nodes node).member.readData d.rangeID cut] } := by
  have hset : Ok d s₀ (σ.set node { σ.nodes node with cut := none }) :=
    h.set { h.servers node with cut := by simp } rfl
  refine { hset with snapshots := fun snap hsnap => ?_ }
  rcases List.mem_append.mp hsnap with hsnap | hsnap
  · exact h.snapshots snap hsnap
  · obtain rfl := List.mem_singleton.mp hsnap
    exact h.fits hs₀ hcut

lemma Ok.applySnapshot {snap : RaftSnapshot} (hengine : Backend.Documented) (h : Ok d s₀ σ)
    (hs : 0 ∉ d.startKey) (he : 0 ∉ d.endKey)
    (hcut : (σ.nodes node).cut = none) (hsnap : SnapshotFits d s₀ σ.log snap) (st : RangeStats) :
    Ok d s₀ (σ.set node { σ.nodes node with
      raft := ((σ.nodes node).raft.applySnapshot snap ⟨(σ.nodes node).store.eng, st⟩).1
      store := ((σ.nodes node).raft.applySnapshot snap ⟨(σ.nodes node).store.eng, st⟩).1.keep
        (σ.nodes node).store
        ((σ.nodes node).raft.applySnapshot snap ⟨(σ.nodes node).store.eng, st⟩).2 }) := by
  have hnode := h.servers node
  obtain ⟨happlied, eng, hdata, hother⟩ := hsnap
  have hagree := applySnapshot_agree hengine ⟨(σ.nodes node).store.eng, st⟩ hnode.replica
    hnode.agree.agree hother hs he hdata
  refine h.set { hnode with
    replica := hnode.replica
    persisted := loadIndex_putIndex _ _ _
    applied := happlied
    agree := ⟨hagree, fun id hid => ?_, fun id hid => absurd hid (Set.notMem_empty id)⟩
    cut := fun c hc => ?_ } rfl
  · obtain rfl : id = d.rangeID := hid
    rw [h.storeUpTo_replicas]
    exact h.node_replicas node
  · rw [show (σ.nodes node).cut = none from hcut] at hc
    cases hc

lemma Ok.restart (h : Ok d s₀ σ) (node : NodeID) : Ok d s₀ (σ.set node (σ.nodes node).restart) := by
  have hnode := h.servers node
  obtain ⟨hreplica, happlied, hload⟩ := newReplica_applied hnode.replica hnode.persisted
  refine h.set ?_ rfl
  exact
    { replica := hreplica
      persisted := by rw [Server.restart, happlied]; exact hload
      applied := by rw [Server.restart, happlied]; exact hnode.applied
      agree := by rw [Server.restart, happlied]; exact hnode.agree
      nodup := List.nodup_nil
      queued := fun cmd hcmd => by cases hcmd
      pending := fun id cmd hcmd => by cases hcmd
      async := fun ar har => by cases har
      cut := fun c hc => by cases hc }

lemma step_ok {a : Action} (hs₀ : s₀.replicas d.rangeID = some ⟨d.rangeID, d⟩)
    (hs : 0 ∉ d.startKey) (he : 0 ∉ d.endKey) (h : Ok d s₀ σ) (hclean : Clean d.keys σ a)
    (hstill : StandsStill σ a) (hstep : σ.step d.rangeID a = some σ') : Ok d s₀ σ' := by
  cases a with
  | send node breq =>
    cases hstep
    exact h.send hclean node
  | handleProposeCmd node id marshals proposes =>
    cases hq : (σ.nodes node).pendingProposeChan with
    | nil => simp [System.step, hq] at hstep
    | cons cmd rest =>
      simp only [System.step, hq, Option.some.injEq] at hstep
      subst hstep
      exact h.propose hq hclean marshals proposes
  | commit k index =>
    cases hk : σ.proposals[k]? with
    | none => simp [System.step, hk] at hstep
    | some x =>
      simp only [System.step, hk, Option.ite_none_right_eq_some, Option.some.injEq] at hstep
      obtain ⟨⟨hpos, hlast⟩, rfl⟩ := hstep
      exact h.commit hk hpos hlast
  | processRaftCommand node =>
    obtain ⟨e, hnext, rfl⟩ := Option.map_eq_some_iff.mp hstep
    exact h.process hstill hnext
  | handleAsyncRequest node k =>
    obtain ⟨ar, hk, rfl⟩ := Option.map_eq_some_iff.mp hstep
    exact h.async hk
  | readIndex node =>
    obtain ⟨cut, hcut, rfl⟩ := Option.map_eq_some_iff.mp hstep
    exact h.readIndex hcut
  | readData node =>
    obtain ⟨cut, hcut, rfl⟩ := Option.map_eq_some_iff.mp hstep
    exact h.readData hs₀ hcut
  | applySnapshot node k =>
    obtain ⟨snap, hsnap, hstep⟩ := Option.bind_eq_some_iff.mp hstep
    rw [Option.ite_none_right_eq_some, Option.some.injEq] at hstep
    obtain ⟨-, rfl⟩ := hstep
    have hfits := h.snapshots snap (List.mem_of_getElem? hsnap)
    exact h.applySnapshot hclean hs he hstill hfits _
  | restart node =>
    cases hstep
    exact h.restart node

lemma System.Fresh.ok (h : σ.Fresh d s₀) : Ok d s₀ σ := by
  have hdata := h.data_nil
  refine ⟨by simp [hdata], by simp [hdata], by simp [h.history], by simp [h.log], ?_, fun i => ?_,
    by simp [h.snapshots]⟩
  · rw [h.history, h.log]
    exact .nil
  · obtain ⟨hqueue, hasync, hpending⟩ := h.idle i
    have hm := h.members i
    have happlied : (σ.nodes i).raft.raftAppliedIndex = 0 := hm.applied
    have hcut : (σ.nodes i).cut = none := hm.cut
    refine ⟨hm.replica, happlied ▸ hm.persisted, .inl happlied, ?_, by simp [hqueue],
      by simp [hqueue], by simp [hpending], by simp [hasync], by simp [hcut]⟩
    rw [storeUpTo, h.log]
    exact hm.agree

/-! #### The ids -/

lemma pendingCmds_processRaftCommand (srv : Server) (rangeID : RangeID) (e : LogEntry) :
    (srv.processRaftCommand rangeID e).1.pendingCmds =
      Function.update srv.pendingCmds e.id none := by
  unfold Server.processRaftCommand
  simp only
  split_ifs <;> rfl

/-- **An id comes into use by being drawn**, and in no other way. -/
lemma step_inUse {rangeID : RangeID} {a : Action} {id : RaftID}
    (hstep : σ.step rangeID a = some σ') (h : σ'.InUse id) : σ.InUse id ∨ a.drawn = some id := by
  have hsame : ∀ {srv : Server} {node : NodeID}, srv.pendingCmds = (σ.nodes node).pendingCmds →
      ∀ cmd, srv.pendingCmds id = some cmd → ∃ cmd, (σ.nodes node).pendingCmds id = some cmd :=
    fun {srv node} heq cmd hcmd => ⟨cmd, heq ▸ hcmd⟩
  cases a with
  | send node breq =>
    cases hstep
    left
    unfold System.send at h
    simp only at h
    split_ifs at h
    · exact inUse_set h (hsame rfl)
    · exact inUse_set h (hsame rfl)
    · exact h
  | handleProposeCmd node raftID marshals proposes =>
    cases hq : (σ.nodes node).pendingProposeChan with
    | nil => simp [System.step, hq] at hstep
    | cons cmd rest =>
      simp only [System.step, hq, Option.some.injEq] at hstep
      subst hstep
      by_cases hid : raftID = id
      · exact .inr (congrArg some hid)
      left
      have hpop : (σ.set node { σ.nodes node with pendingProposeChan := rest }).InUse id →
          σ.InUse id := fun h => inUse_set h (hsame rfl)
      generalize σ.set node { σ.nodes node with pendingProposeChan := rest } = σ₁ at h hpop
      have hpend : (σ₁.set node { σ₁.nodes node with
          pendingCmds := Function.update (σ₁.nodes node).pendingCmds raftID (some cmd) }).InUse id →
          σ.InUse id := fun h => hpop (inUse_set h fun cmd' hcmd' =>
        ⟨cmd', by simpa [Ne.symm hid] using hcmd'⟩)
      unfold System.handleProposeCmd at h
      simp only at h
      split_ifs at h
      · exact hpop h
      · exact hpop h
      · refine hpend (h.imp_right ?_)
        rintro ⟨x, hx, hxid⟩
        refine ⟨x, ?_, hxid⟩
        have hne : x ≠ ⟨raftID, cmd⟩ := fun heq => hid (by rw [← hxid, heq])
        simpa [System.data, hne] using hx
      · exact hpend h
  | commit k index =>
    cases hk : σ.proposals[k]? with
    | none => simp [System.step, hk] at hstep
    | some x =>
      simp only [System.step, hk, Option.ite_none_right_eq_some, Option.some.injEq] at hstep
      obtain ⟨-, rfl⟩ := hstep
      refine .inl (h.imp_right ?_)
      rintro ⟨y, hy, hyid⟩
      exact ⟨y, (data_commit hk index).mem_iff.mp hy, hyid⟩
  | processRaftCommand node =>
    obtain ⟨e, -, rfl⟩ := Option.map_eq_some_iff.mp hstep
    have hused : (σ.set node ((σ.nodes node).processRaftCommand rangeID e).1).InUse id := h
    refine .inl (inUse_set hused fun cmd hcmd => ?_)
    rw [pendingCmds_processRaftCommand] at hcmd
    by_cases hid : id = e.id
    · simp [hid] at hcmd
    · exact ⟨cmd, by simpa [hid] using hcmd⟩
  | handleAsyncRequest node k =>
    obtain ⟨ar, hk, rfl⟩ := Option.map_eq_some_iff.mp hstep
    exact .inl (inUse_set h (hsame rfl))
  | readIndex node =>
    obtain ⟨cut, -, rfl⟩ := Option.map_eq_some_iff.mp hstep
    exact .inl (inUse_set h (hsame rfl))
  | readData node =>
    obtain ⟨cut, -, rfl⟩ := Option.map_eq_some_iff.mp hstep
    have hused : (σ.set node { σ.nodes node with cut := none }).InUse id := h
    exact .inl (inUse_set hused (hsame rfl))
  | applySnapshot node k =>
    obtain ⟨snap, -, hstep⟩ := Option.bind_eq_some_iff.mp hstep
    rw [Option.ite_none_right_eq_some, Option.some.injEq] at hstep
    obtain ⟨-, rfl⟩ := hstep
    exact .inl (inUse_set h (hsame rfl))
  | restart node =>
    cases hstep
    exact .inl (inUse_set h fun cmd hcmd => by cases hcmd)

/-- A run that draws no id twice. -/
lemma along_clean {rangeID : RangeID} {S : Set Key} {acts : List Action}
    (hvalid : ∀ node breq, .send node breq ∈ acts → breq.Valid S)
    (hengine : ∀ a ∈ acts, a.Installs → Backend.Documented)
    (hids : (acts.filterMap Action.drawn).Nodup)
    (hfree : ∀ id ∈ acts.filterMap Action.drawn, ¬ σ.InUse id) :
    Along (System.step rangeID) (Clean S) σ acts := by
  induction acts generalizing σ with
  | nil => trivial
  | cons a acts ih =>
    have hhead : Clean S σ a := by
      cases a
      case send node breq => exact hvalid node breq List.mem_cons_self
      case handleProposeCmd node id marshals proposes => exact hfree id (by simp [Action.drawn])
      case applySnapshot node k => exact hengine _ List.mem_cons_self trivial
      all_goals trivial
    refine ⟨hhead, fun σ' hstep => ih (fun node breq h => hvalid node breq (.tail _ h))
      (fun b hb => hengine b (.tail _ hb)) ?_ ?_⟩
    · exact hids.sublist ((List.sublist_cons_self a acts).filterMap _)
    · intro id hid hused
      rcases step_inUse hstep hused with hused | hdrawn
      · exact hfree id ((List.sublist_cons_self a acts).filterMap _ |>.subset hid) hused
      · rw [List.filterMap_cons_some hdrawn, List.nodup_cons] at hids
        exact hids.1 hid

section Runs

-- a run of fresh nodes: what the users send, the ids that are drawn, and the snapshots
variable {acts : List Action} (hs₀ : s₀.replicas d.rangeID = some ⟨d.rangeID, d⟩)
  (hs : 0 ∉ d.startKey) (he : 0 ∉ d.endKey) (hfresh : σ.Fresh d s₀)
  (hvalid : ∀ node breq, .send node breq ∈ acts → breq.Valid d.keys)
  (hengine : ∀ a ∈ acts, a.Installs → Backend.Documented)
  (hids : (acts.filterMap Action.drawn).Nodup)
  (hstill : Along (System.step d.rangeID) StandsStill σ acts)
  (hrun : run (System.step d.rangeID) σ acts = some σ')

include hs₀ hs he hfresh hvalid hengine hids hstill hrun

/-- Every run keeps the invariant. -/
lemma run_ok : Ok d s₀ σ' := by
  have hkeep : ∀ (σ : System) a σ', Ok d s₀ σ → Clean d.keys σ a ∧ StandsStill σ a →
      System.step d.rangeID σ a = some σ' → Ok d s₀ σ' :=
    fun _ _ _ h hC hstep => step_ok hs₀ hs he h hC.1 hC.2 hstep
  have hclean : Along (System.step d.rangeID) (Clean d.keys) σ acts :=
    along_clean hvalid hengine hids fun id _ => hfresh.free id
  exact invariant hkeep hfresh.ok (hclean.and hstill) hrun

/-- **The replicas of a range are linearizable.** However the nodes take commands, propose them,
apply the log, answer reads from snapshots, catch up by the state of another node and start again,
the calls and returns that the users have seen are those of one store without replicas, in an order
that keeps a command which had returned before another one was called in front of it. No id is drawn
twice, the bounds of the range have no zero bytes, and a replica stands still while its snapshot is
read. Snapshots and aborts take an engine that does what it says. -/
theorem service_linearizable : Linear.Linearizable (object d.rangeID s₀) σ'.history :=
  ⟨_, (run_ok hs₀ hs he hfresh hvalid hengine hids hstill hrun).explains⟩

/-- **The replicas of a range are one state machine.** In such a run a replica holds of the range
what one store holds that has executed the committed commands up to its applied index, and replicas
with the same applied index hold the same. -/
theorem group_agrees :
    (∀ i, ∀ k ∈ d.keys, ∀ x ∈ entryKeys k, (σ'.nodes i).store.eng.get x =
      (storeUpTo d s₀ σ'.log (σ'.nodes i).raft.raftAppliedIndex).eng.get x) ∧
    ∀ i j, (σ'.nodes i).raft.raftAppliedIndex = (σ'.nodes j).raft.raftAppliedIndex →
      ∀ k ∈ d.keys, ∀ x ∈ entryKeys k,
        (σ'.nodes i).store.eng.get x = (σ'.nodes j).store.eng.get x := by
  have hok := run_ok hs₀ hs he hfresh hvalid hengine hids hstill hrun
  have hagree := fun i => (hok.servers i).agree.agree
  refine ⟨fun i => (hagree i).same, fun i j hij => ?_⟩
  have hj := hagree j
  rw [← hij] at hj
  exact ((hagree i).trans hj.symm).same

end Runs

end Invariant

section Example

attribute [local instance] Backend.ordered

open Replication (desc node member member_fresh txn)

def put : Command :=
  { req := [(isWriteFlag, .put { key := [0x02, 0x61], timestamp := ⟨3, 0⟩, txn
                                 value := { bytes := [9] } })] }

def read : Command :=
  { req := [(isReadFlag, .get { key := [0x02, 0x61], timestamp := ⟨3, 0⟩, txn })] }

def nodes : System where
  nodes i := { raft := (member i).raft, store := (member i).store }

lemma nodes_fresh : nodes.Fresh desc (node .empty) :=
  ⟨rfl, rfl, rfl, rfl, fun i => member_fresh i, fun i => ⟨rfl, rfl, fun _ => rfl⟩⟩

/-- A put on node 1, of which node 2 learns by a snapshot, and then a get on node 2, which a worker
answers while node 1 starts again. -/
def acts : List Action :=
  [.send 1 put, .handleProposeCmd 1 77 true true, .commit 0 3, .processRaftCommand 1,
   .readIndex 1, .readData 1, .applySnapshot 2 0, .send 2 read,
   .handleProposeCmd 2 78 true true, .commit 0 5, .processRaftCommand 2, .restart 1,
   .handleAsyncRequest 2 0, .processRaftCommand 1]

lemma acts_valid (i : NodeID) (breq : Command) (h : .send i breq ∈ acts) :
    breq.Valid desc.keys := by
  have hkey : ([0x02, 0x61] : Key) ∈ desc.keys := ⟨by decide, by decide⟩
  have hbreq : i = 1 ∧ breq = put ∨ i = 2 ∧ breq = read := by simpa [acts] using h
  rcases hbreq with ⟨-, rfl⟩ | ⟨-, rfl⟩
  · exact ⟨by decide, fun h => absurd h (by decide), by
      simp [put, Command.requests, Request.OnKeys, Request.Within, hkey],
      .inl Backend.copies_ordered⟩
  · exact ⟨by decide, by simp [read, Command.requests, hkey], fun h => absurd h (by decide),
      .inl Backend.copies_ordered⟩

lemma acts_still : Along (System.step 7) StandsStill nodes acts := by decide +kernel

theorem service_linearizable_get :
    ∃ σ', run (System.step 7) nodes acts = some σ' ∧
      σ'.history = [.call (1, 0) put, .ret (1, 0) ⟨[.put], none⟩, .call (2, 0) read,
        .ret (2, 0) ⟨[.get { bytes := [9] }], none⟩] ∧
      Linear.Linearizable (object 7 (node .empty)) σ'.history := by
  have hsome : (run (System.step 7) nodes acts).map (·.history) =
      some [.call (1, 0) put, .ret (1, 0) ⟨[.put], none⟩, .call (2, 0) read,
        .ret (2, 0) ⟨[.get { bytes := [9] }], none⟩] := by
    decide +kernel
  obtain ⟨σ', hrun, hhistory⟩ := Option.map_eq_some_iff.mp hsome
  exact ⟨σ', hrun, hhistory, service_linearizable (d := desc) rfl (by decide) (by decide)
    nodes_fresh acts_valid (fun _ _ _ => Backend.documented_ordered) (by decide) acts_still hrun⟩

theorem group_agrees_get :
    ∃ σ', run (System.step 7) nodes acts = some σ' ∧
      (σ'.nodes 1).raft.raftAppliedIndex = (σ'.nodes 2).raft.raftAppliedIndex ∧
      ∀ k ∈ desc.keys, ∀ x ∈ entryKeys k,
        (σ'.nodes 1).store.eng.get x = (σ'.nodes 2).store.eng.get x := by
  have hsome : ((run (System.step 7) nodes acts).map fun σ' =>
      decide ((σ'.nodes 1).raft.raftAppliedIndex = (σ'.nodes 2).raft.raftAppliedIndex)) =
      some true := by
    decide +kernel
  obtain ⟨σ', hrun, happlied⟩ := Option.map_eq_some_iff.mp hsome
  have happlied := of_decide_eq_true happlied
  exact ⟨σ', hrun, happlied, (group_agrees (d := desc) rfl (by decide) (by decide) nodes_fresh
    acts_valid (fun _ _ _ => Backend.documented_ordered) (by decide) acts_still hrun).2 1 2
    happlied⟩

end Example

end Ancestor.Service
