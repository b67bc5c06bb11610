import Ancestor.Lib.Hoare
import Ancestor.RegionStore

/-!
Removing a replica (`deleteReplica` of `pd/replica.go`, `pd/util.go`, `storage/store.go`,
`storage/rebalance.go`).

Four steps on three machines: the node gives up its replica, the leader takes the node out of the
raft group and hands out the new descriptor, and the descriptor is put into etcd. The first step
fails on a node that has no replica, and a failed step is sent again until the attempts run out.
A call that has failed after its first step took effect cannot be made again: the replica that
would be removed is gone.

Raft is taken as it is documented. What the leader proposes is committed when the members that run
are a majority of the group, and then every one of them applies it; otherwise it is not.
-/

namespace Ancestor.Removal

open Hoare
open RegionStore (adjustLeader perm_adjustLeader)

/-! ### The machines -/

/-- What becomes of a message: there may be no connection, or the message or its reply is lost. -/
inductive Fate
  | delivered
  | noClient
  | lost
  | replyLost
  deriving DecidableEq, Repr

inductive NodeError
  /-- The text `range not found` of `executeRemoveReplica`, not the error of that name. -/
  | noReplica
  | notFoundNode
  | rangeNotFound
  | notLeader (nodeID : NodeID)
  | timeout
  deriving DecidableEq, Repr

inductive Failure
  | replicaNotExist
  | sendFail
  | node (e : NodeError)
  | etcd
  /-- A node that the placement driver does not know is a nil pointer. -/
  | panic
  deriving DecidableEq, Repr

/-- What is taken of raft: a proposal is committed exactly if the members that run are a majority
of the group. -/
structure Raft where
  commits : (group running : List NodeID) → Bool
  commits_iff : ∀ group running, commits group running = true ↔ group.length < 2 * running.length

/-- One range: the nodes that the placement driver knows, the replica of each node with its
descriptor, the raft group and the one the running replicas take for its leader, and the descriptor
in the cache of the placement driver and in etcd. `heir` is taken for the leader once the replica
of the leader has stopped. `fates` are those of the next messages; after them all are delivered. -/
structure State where
  raft : Raft
  nodes : List NodeID
  stores : NodeID → Option RangeDescriptor
  group : List NodeID
  lead : NodeID
  heir : NodeID
  cached : RangeDescriptor
  etcd : RangeDescriptor
  fates : List Fate := []

abbrev RM := EStateM Failure State

def nodesOf (rd : RangeDescriptor) : List NodeID := rd.replicas.map (·.nodeID)

/-- `GetNextNodeID`: 0 for a node without a replica. -/
def getNextNodeID (rd : RangeDescriptor) (id : NodeID) : NodeID :=
  match (nodesOf rd).findIdx? fun x => decide (x = id) with
  | some i => ((nodesOf rd)[(i + 1) % (nodesOf rd).length]?).getD 0
  | none => 0

namespace State

variable (σ : State)

def running : List NodeID := σ.group.filter fun x => (σ.stores x).isSome

/-- What the leader proposes is committed. -/
def Commits : Prop := σ.raft.commits σ.group σ.running = true

instance : Decidable σ.Commits := inferInstanceAs (Decidable (_ = true))

lemma commits_iff : σ.Commits ↔ σ.group.length < 2 * σ.running.length := σ.raft.commits_iff _ _

/-- `executeRemoveReplica` on node `x`; the replica stops. -/
def executeRemoveReplica (x n : NodeID) : Except NodeError State :=
  match σ.stores x with
  | none => .error .noReplica
  | some rd =>
    if n ∈ nodesOf rd then
      .ok { σ with
        stores := Function.update σ.stores x none
        lead := if σ.lead = x then σ.heir else σ.lead }
    else .error .notFoundNode

/-- The result of a request that was carried out, or nothing has happened. -/
def carried (r : Except NodeError State) : State :=
  match r with
  | .ok σ' => σ'
  | .error _ => σ

end State

/-- The requests to the leader. -/
inductive Command
  | deleteRaftConf (n : NodeID)
  | updateRange (rd : RangeDescriptor)
  deriving DecidableEq, Repr

/-- What the leader does with a request. `deleteRaftConf` answers when the change is proposed,
`updateRange` when it is applied. -/
def State.executeCmd (σ : State) : Command → Except NodeError State
  | .deleteRaftConf n =>
    .ok (if σ.Commits then { σ with group := σ.group.filter fun y => y ≠ n } else σ)
  | .updateRange rd =>
    if σ.Commits then
      .ok { σ with
        stores := fun y => if y ∈ σ.group then (σ.stores y).map fun _ => rd else σ.stores y }
    else .error .timeout

/-- `store.Send` on node `x`. -/
def State.send (σ : State) (x : NodeID) (c : Command) : Except NodeError State :=
  match σ.stores x with
  | none => .error .rangeNotFound
  | some _ => if σ.lead ≠ x then .error (.notLeader σ.lead) else σ.executeCmd c

/-! ### The placement driver -/

def nextFate : RM Fate := fun σ =>
  match σ.fates with
  | [] => .ok .delivered σ
  | fate :: fates => .ok fate { σ with fates }

lemma nextFate_quiet {σ : State} (h : σ.fates = []) : nextFate σ = .ok .delivered σ := by
  rw [nextFate, h]

/-- `MaxRetries` is 20, and the first attempt is not counted. -/
def attempts : ℕ := 21

/-- `sendBatchRequest` to node `id`: whatever the node answers, only success ends the loop. -/
def sendBatchRequest (exec : State → Except NodeError State) (id : NodeID) : ℕ → RM Unit
  | 0 => throw .sendFail
  | k + 1 => do
    if id ∉ (← getThe State).nodes then throw .panic
    else
      match ← nextFate with
      | .noClient | .lost => sendBatchRequest exec id k
      | .replyLost =>
        modify fun σ => σ.carried (exec σ)
        sendBatchRequest exec id k
      | .delivered =>
        let σ ← getThe State
        match exec σ with
        | .ok σ' => set σ'
        | .error _ => sendBatchRequest exec id k

/-- `AdjustLeader` in the cache, whose descriptor the callers have a pointer to. -/
def State.adjust (σ : State) (id : NodeID) : State :=
  { σ with cached.replicas := adjustLeader id σ.cached.replicas }

/-- `sendBatchRequestToLeader` with `k` attempts left, at node `id`. -/
def sendBatchRequestToLeader (c : Command) : ℕ → NodeID → RM Unit
  | 0, _ => throw .sendFail
  | k + 1, id => do
    let rd := (← getThe State).cached
    if id ∉ (← getThe State).nodes then throw .panic
    else
      match ← nextFate with
      | .noClient => throw .sendFail
      | .lost => sendBatchRequestToLeader c k (getNextNodeID rd id)
      | .replyLost =>
        modify fun σ => σ.carried (σ.send id c)
        sendBatchRequestToLeader c k (getNextNodeID rd id)
      | .delivered =>
        let σ ← getThe State
        match σ.send id c with
        | .ok σ' => set (σ'.adjust id)
        | .error .rangeNotFound =>
          -- the address of the next node is logged
          if getNextNodeID rd id ∉ σ.nodes then throw .panic
          else sendBatchRequestToLeader c k (getNextNodeID rd id)
        | .error (.notLeader lead) =>
          sendBatchRequestToLeader c k (if lead ≤ 0 then getNextNodeID rd lead else lead)
        | .error e => throw (.node e)

/-- The request starts at the first replica of the cached descriptor. -/
def toLeader (c : Command) : RM Unit := do
  match nodesOf (← getThe State).cached with
  | [] => throw .panic
  | id :: _ => sendBatchRequestToLeader c attempts id

/-- The put into etcd, and after it the cache. -/
def setRangeDescriptors (rd : RangeDescriptor) : RM Unit := do
  match ← nextFate with
  | .noClient | .lost => throw .etcd
  | .replyLost =>
    modify ({ · with etcd := rd })
    throw .etcd
  | .delivered => modify ({ · with etcd := rd, cached := rd })

def deleteReplica (n : NodeID) : RM Unit := do
  let rd := (← getThe State).cached
  let repls := rd.replicas.filter fun rpl => decide (rpl.nodeID ≠ n)
  if n ∉ nodesOf rd then throw .replicaNotExist
  else
    sendBatchRequest (·.executeRemoveReplica n n) n attempts
    toLeader (.deleteRaftConf n)
    let nrd := { (← getThe State).cached with replicas := repls }
    toLeader (.updateRange nrd)
    setRangeDescriptors nrd

/-! ### Rules for the loops -/

lemma State.carried_of {P : State → Prop} {σ : State} {r : Except NodeError State} (hσ : P σ)
    (h : ∀ σ', r = .ok σ' → P σ') : P (σ.carried r) := by
  unfold carried
  cases r with
  | ok σ' => exact h σ' rfl
  | error e => exact hσ

section Rules

variable {P Q : State → Prop} (hfates : ∀ σ fates, P σ → P { σ with fates })
include hfates

lemma triple_nextFate {E : Failure → State → Prop} : Triple P nextFate (fun _ => P) E := by
  intro σ hσ
  unfold nextFate
  cases σ.fates with
  | nil => exact hσ
  | cons fate fates => exact hfates σ fates hσ

/-- `P` stands for the states between two attempts, `Q` for those after one that succeeds. -/
lemma triple_sendBatchRequest {exec : State → Except NodeError State} {id : NodeID}
    (hexec : ∀ σ σ', P σ → exec σ = .ok σ' → P σ' ∧ Q σ') (k : ℕ) :
    Triple P (sendBatchRequest exec id k) (fun _ => Q) fun _ => P := by
  induction k with
  | zero => exact triple_throw fun _ hσ => hσ
  | succ k ih =>
    rw [sendBatchRequest]
    refine Triple.get_bind fun σ₀ => ?_
    by_cases hid : id ∉ σ₀.nodes
    · rw [if_pos hid]
      exact triple_throw fun _ hσ => hσ
    rw [if_neg hid]
    refine (triple_nextFate hfates).bind fun fate => ?_
    cases fate with
    | noClient => exact ih
    | lost => exact ih
    | replyLost =>
      refine Triple.bind (Q := fun _ => P) (fun σ hσ => ?_) fun _ => ih
      exact State.carried_of hσ fun σ' hr => (hexec σ σ' hσ hr).1
    | delivered =>
      intro σ hσ
      simp only [run_bind_get]
      cases hr : exec σ with
      | ok σ' => exact (hexec σ σ' hσ hr).2
      | error e => exact ih σ hσ

lemma triple_sendBatchRequestToLeader {c : Command}
    (hsend : ∀ σ x σ', P σ → σ.send x c = .ok σ' → P σ' ∧ Q (σ'.adjust x)) (k : ℕ) (id : NodeID) :
    Triple P (sendBatchRequestToLeader c k id) (fun _ => Q) fun _ => P := by
  induction k generalizing id with
  | zero => exact triple_throw fun _ hσ => hσ
  | succ k ih =>
    rw [sendBatchRequestToLeader]
    refine Triple.get_bind fun σ₀ => Triple.get_bind fun σ₁ => ?_
    by_cases hid : id ∉ σ₁.nodes
    · rw [if_pos hid]
      exact triple_throw fun _ hσ => hσ
    rw [if_neg hid]
    refine (triple_nextFate hfates).bind fun fate => ?_
    cases fate with
    | noClient => exact triple_throw fun _ hσ => hσ
    | lost => exact ih _
    | replyLost =>
      refine Triple.bind (Q := fun _ => P) (fun σ hσ => ?_) fun _ => ih _
      exact State.carried_of hσ fun σ' hr => (hsend σ id σ' hσ hr).1
    | delivered =>
      intro σ hσ
      simp only [run_bind_get]
      cases hr : σ.send id c with
      | ok σ' => exact (hsend σ id σ' hσ hr).2
      | error e =>
        cases e with
        | rangeNotFound =>
          by_cases hnext : getNextNodeID σ₀.cached id ∉ σ.nodes
          · simp only [if_pos hnext]
            exact hσ
          · simp only [if_neg hnext]
            exact ih _ σ hσ
        | notLeader lead => exact ih _ σ hσ
        | noReplica | notFoundNode | timeout => exact hσ

lemma triple_toLeader {c : Command}
    (hsend : ∀ σ x σ', P σ → σ.send x c = .ok σ' → P σ' ∧ Q (σ'.adjust x)) :
    Triple P (toLeader c) (fun _ => Q) fun _ => P := by
  refine Triple.get_bind fun σ₀ => ?_
  cases nodesOf σ₀.cached with
  | nil => exact triple_throw fun _ hσ => hσ
  | cons id l => exact triple_sendBatchRequestToLeader hfates hsend attempts id

end Rules

/-! ### Calls that cannot succeed -/

section Gone

variable {n : NodeID}

/-- The node has no replica. -/
def Gone (n : NodeID) (σ : State) : Prop := σ.stores n = none

/-- Only a replica that leads carries a request out. -/
lemma send_ok {σ σ' : State} {x : NodeID} {c : Command} (h : σ.send x c = .ok σ') :
    σ.lead = x ∧ σ.stores x ≠ none ∧ σ.executeCmd c = .ok σ' := by
  unfold State.send at h
  cases hx : σ.stores x with
  | none =>
    rw [hx] at h
    cases h
  | some rd =>
    rw [hx] at h
    by_cases hlead : σ.lead = x
    · exact ⟨hlead, by simp, by simpa [hlead] using h⟩
    · simp only [ne_eq, hlead, not_false_eq_true, if_true] at h
      cases h

lemma Gone.executeCmd {σ σ' : State} {c : Command} (h : Gone n σ) (hrun : σ.executeCmd c = .ok σ') :
    Gone n σ' := by
  cases c with
  | deleteRaftConf m =>
    cases hrun
    unfold Gone at h ⊢
    split_ifs <;> exact h
  | updateRange rd =>
    rw [State.executeCmd] at hrun
    split_ifs at hrun
    cases hrun
    simp only [Gone] at h ⊢
    rw [h, Option.map_none, ite_self]

/-- A request to the leader does not bring the replica back. -/
lemma Gone.toLeader (c : Command) :
    Triple (Gone n) (toLeader c) (fun _ => Gone n) fun _ => Gone n :=
  triple_toLeader (fun _ _ h => h) fun _ _ _ h hsend =>
    have hgone := h.executeCmd (send_ok hsend).2.2
    ⟨hgone, hgone⟩

lemma Gone.setRangeDescriptors (rd : RangeDescriptor) :
    Triple (Gone n) (setRangeDescriptors rd) (fun _ => Gone n) fun _ => Gone n := by
  refine (triple_nextFate fun _ _ h => h).bind fun fate => ?_
  cases fate with
  | noClient | lost => exact triple_throw fun _ h => h
  | replyLost | delivered => exact fun _ h => h

lemma executeRemoveReplica_ok {σ σ' : State} {x : NodeID}
    (h : σ.executeRemoveReplica x n = .ok σ') : σ.stores x ≠ none ∧ Gone x σ' := by
  unfold State.executeRemoveReplica at h
  cases hx : σ.stores x with
  | none =>
    rw [hx] at h
    cases h
  | some rd =>
    rw [hx] at h
    by_cases hn : n ∈ nodesOf rd
    · simp only [hn, if_true] at h
      cases h
      exact ⟨by simp, Function.update_self ..⟩
    · simp only [hn, if_false] at h
      cases h

/-- What comes after the first step. -/
def finish (n : NodeID) (repls : List ReplicaDescriptor) : RM Unit := do
  toLeader (.deleteRaftConf n)
  let nrd := { (← getThe State).cached with replicas := repls }
  toLeader (.updateRange nrd)
  setRangeDescriptors nrd

lemma Gone.finish (repls : List ReplicaDescriptor) :
    Triple (Gone n) (finish n repls) (fun _ => Gone n) fun _ => Gone n :=
  (Gone.toLeader _).bind fun _ => Triple.get_bind fun _ =>
    (Gone.toLeader _).bind fun _ => Gone.setRangeDescriptors _

lemma deleteReplica_eq {σ : State} (h : n ∈ nodesOf σ.cached) :
    deleteReplica n σ = (do
      sendBatchRequest (·.executeRemoveReplica n n) n attempts
      finish n (σ.cached.replicas.filter fun rpl => decide (rpl.nodeID ≠ n)) : RM Unit) σ := by
  rw [deleteReplica, run_bind_get, if_neg (not_not.mpr h)]
  rfl

lemma deleteReplica_unlisted {σ : State} (h : n ∉ nodesOf σ.cached) :
    deleteReplica n σ = .error .replicaNotExist σ := by
  rw [deleteReplica, run_bind_get, if_pos h]
  rfl

/-- **A replica that is gone cannot be removed.** -/
lemma Gone.deleteReplica {σ : State} (h : Gone n σ) (σ' : State) :
    deleteReplica n σ ≠ .ok () σ' := by
  intro hrun
  by_cases hn : n ∈ nodesOf σ.cached
  · rw [deleteReplica_eq hn] at hrun
    have hremove : Triple (Gone n)
        (sendBatchRequest (·.executeRemoveReplica n n) n attempts) (fun _ _ => False)
        fun _ => Gone n :=
      triple_sendBatchRequest (Q := fun _ => False) (fun _ _ h => h)
        (fun σ σ' h hexec => absurd h (executeRemoveReplica_ok hexec).1) attempts
    exact (hremove.bind (S := fun _ _ => False) fun _ σ hσ => hσ.elim).of_ok h hrun
  · rw [deleteReplica_unlisted hn] at hrun
    cases hrun

/-- **What a failed call leaves**: nothing has happened, or the replica is gone. -/
lemma deleteReplica_error {σ₀ σ₁ : State} {e : Failure} (h : deleteReplica n σ₀ = .error e σ₁) :
    (∃ fates, σ₁ = { σ₀ with fates }) ∨ Gone n σ₁ := by
  by_cases hn : n ∈ nodesOf σ₀.cached
  · rw [deleteReplica_eq hn] at h
    have hfirst : Triple (fun σ => (∃ fates, σ = { σ₀ with fates }) ∨ Gone n σ)
        (sendBatchRequest (·.executeRemoveReplica n n) n attempts) (fun _ => Gone n)
        fun _ σ => (∃ fates, σ = { σ₀ with fates }) ∨ Gone n σ := by
      refine triple_sendBatchRequest ?_ (fun σ σ' _ hexec => ?_) attempts
      · rintro σ fates (⟨fates', rfl⟩ | hgone)
        · exact .inl ⟨fates, rfl⟩
        · exact .inr hgone
      · exact ⟨.inr (executeRemoveReplica_ok hexec).2, (executeRemoveReplica_ok hexec).2⟩
    have hrest := fun _ : Unit => (Gone.finish (n := n)
      (σ₀.cached.replicas.filter fun rpl => decide (rpl.nodeID ≠ n))).imp (fun _ h => h)
      (fun _ _ h => h) (fun _ σ h => (Or.inr h : (∃ fates, σ = { σ₀ with fates }) ∨ Gone n σ))
    exact (hfirst.bind hrest).of_error (.inl ⟨σ₀.fates, rfl⟩) h
  · rw [deleteReplica_unlisted hn] at h
    cases h
    exact .inl ⟨σ₀.fates, rfl⟩

end Gone

/-! ### Calls that succeed -/

/-- A range at rest: its replicas run on the nodes of its descriptor, which are the members of the
raft group, and the replica of `n` is listed. -/
structure Healthy (n : NodeID) (σ : State) : Prop where
  nodup : (nodesOf σ.cached).Nodup
  mem : n ∈ nodesOf σ.cached
  pos : ∀ x ∈ nodesOf σ.cached, 0 < x
  known : ∀ x ∈ nodesOf σ.cached, x ∈ σ.nodes
  runs : ∀ x, σ.stores x ≠ none ↔ x ∈ nodesOf σ.cached
  lists : ∀ rd, σ.stores n = some rd → n ∈ nodesOf rd
  group : σ.group.Perm (nodesOf σ.cached)

/-- The leader when the replica of `n` has stopped. -/
def State.leadWithout (σ : State) (n : NodeID) : NodeID := if σ.lead = n then σ.heir else σ.lead

/-- The others can go on without `n`: one of them is the leader then, and they are a majority. -/
structure Able (n : NodeID) (σ : State) : Prop where
  leads : σ.leadWithout n ∈ nodesOf σ.cached
  other : σ.leadWithout n ≠ n
  majority : 3 ≤ σ.group.length

/-- The replica is off the node and out of the group, and nobody lists it. -/
structure Done (n : NodeID) (σ : State) : Prop where
  gone : Gone n σ
  group : n ∉ σ.group
  stores : ∀ x rd, σ.stores x = some rd → n ∉ nodesOf rd
  cached : n ∉ nodesOf σ.cached
  etcd : n ∉ nodesOf σ.etcd

/-- After the first step. -/
def State.removed (σ : State) (n : NodeID) : State :=
  { σ with stores := Function.update σ.stores n none, lead := σ.leadWithout n }

section First

variable {n : NodeID} {σ : State} (h : Healthy n σ)
include h

lemma sendBatchRequest_removed {fates : List Fate}
    (hfate : nextFate σ = .ok .delivered { σ with fates }) :
    sendBatchRequest (·.executeRemoveReplica n n) n attempts σ =
      .ok () (State.removed { σ with fates } n) := by
  have hexec : State.executeRemoveReplica { σ with fates } n n =
      .ok (State.removed { σ with fates } n) := by
    obtain ⟨rd, hrd⟩ := Option.ne_none_iff_exists'.mp ((h.runs n).mpr h.mem)
    rw [State.executeRemoveReplica, hrd]
    simp only [h.lists rd hrd, if_true]
    rfl
  show sendBatchRequest _ n (20 + 1) σ = _
  rw [sendBatchRequest, run_bind_get, if_neg (not_not.mpr (h.known n h.mem)),
    run_bind_ok hfate]
  simp only
  rw [run_bind_get, hexec]
  rfl

lemma stores_removed (x : NodeID) :
    (σ.removed n).stores x ≠ none ↔ x ∈ nodesOf σ.cached ∧ x ≠ n := by
  rw [State.removed, ← h.runs]
  by_cases hx : x = n
  · simp [hx]
  · simp [hx]

lemma running_removed : (σ.removed n).running = σ.group.filter fun x => decide (x ≠ n) := by
  refine List.filter_congr fun x hx => ?_
  have hiff := stores_removed h x
  rw [Bool.eq_iff_iff, decide_eq_true_iff, Option.isSome_iff_ne_none, hiff]
  exact and_iff_right (h.group.mem_iff.mp hx)

lemma length_running_removed : (σ.removed n).running.length + 1 = σ.group.length := by
  have hn : n ∈ σ.group := h.group.mem_iff.mpr h.mem
  have hnodup : σ.group.Nodup := h.group.nodup_iff.mpr h.nodup
  have hpos := List.length_pos_of_mem hn
  have herase := List.length_erase_of_mem hn
  rw [hnodup.erase_eq_filter] at herase
  rw [running_removed h]
  have heq : (σ.group.filter fun x => decide (x ≠ n)) = σ.group.filter (· != n) :=
    List.filter_congr fun x _ => by
      rw [Bool.eq_iff_iff]
      simp
  rw [heq]
  omega

lemma commits_removed : (σ.removed n).Commits ↔ 3 ≤ σ.group.length := by
  have hlen := length_running_removed h
  have hgroup : (σ.removed n).group = σ.group := rfl
  rw [State.commits_iff, hgroup]
  omega

end First

section Attempts

variable {σ σ' : State} {c : Command} {id : NodeID} (k : ℕ) (hfates : σ.fates = [])
  (hid : id ∈ σ.nodes)
include hfates hid

lemma attempt_eq : sendBatchRequestToLeader c (k + 1) id σ = (match σ.send id c with
    | .ok σ' => set (σ'.adjust id)
    | .error .rangeNotFound =>
      if getNextNodeID σ.cached id ∉ σ.nodes then throw .panic
      else sendBatchRequestToLeader c k (getNextNodeID σ.cached id)
    | .error (.notLeader lead) => sendBatchRequestToLeader c k
        (if lead ≤ 0 then getNextNodeID σ.cached lead else lead)
    | .error e => throw (.node e) : RM Unit) σ := by
  rw [sendBatchRequestToLeader, run_bind_get, run_bind_get, if_neg (not_not.mpr hid),
    run_bind_ok (nextFate_quiet hfates)]
  simp only
  rw [run_bind_get]

/-- The leader carries the request out. -/
lemma attempt_leader (hrun : σ.stores id ≠ none) (hlead : σ.lead = id)
    (hexec : σ.executeCmd c = .ok σ') :
    sendBatchRequestToLeader c (k + 1) id σ = .ok () (σ'.adjust id) := by
  obtain ⟨rd, hrd⟩ := Option.ne_none_iff_exists'.mp hrun
  have hsend : σ.send id c = .ok σ' := by
    simp only [State.send, hrd, hlead, ne_eq, not_true_eq_false, if_false, hexec]
  rw [attempt_eq k hfates hid, hsend]
  rfl

/-- Another replica names the leader. -/
lemma attempt_follower (hrun : σ.stores id ≠ none) (hlead : σ.lead ≠ id) (hpos : 0 < σ.lead) :
    sendBatchRequestToLeader c (k + 1) id σ = sendBatchRequestToLeader c k σ.lead σ := by
  obtain ⟨rd, hrd⟩ := Option.ne_none_iff_exists'.mp hrun
  have hsend : σ.send id c = .error (.notLeader σ.lead) := by
    simp only [State.send, hrd, ne_eq, hlead, not_false_eq_true, if_true]
  rw [attempt_eq k hfates hid, hsend]
  simp only [if_neg (Int32.not_le.mpr hpos)]

/-- A node without a replica is passed over. -/
lemma attempt_missing (hrun : σ.stores id = none) (hnext : getNextNodeID σ.cached id ∈ σ.nodes) :
    sendBatchRequestToLeader c (k + 1) id σ =
      sendBatchRequestToLeader c k (getNextNodeID σ.cached id) σ := by
  have hsend : σ.send id c = .error .rangeNotFound := by simp only [State.send, hrun]
  rw [attempt_eq k hfates hid, hsend]
  simp only [if_neg (not_not.mpr hnext)]

end Attempts

/-- In a list of two nodes at least the next one is another one. -/
lemma getNextNodeID_ne {rd : RangeDescriptor} {n m : NodeID} (hnodup : (nodesOf rd).Nodup)
    (hn : n ∈ nodesOf rd) (hm : m ∈ nodesOf rd) (hmn : m ≠ n) :
    getNextNodeID rd n ∈ nodesOf rd ∧ getNextNodeID rd n ≠ n := by
  obtain ⟨i, hi, hget⟩ := List.getElem_of_mem hn
  obtain ⟨j, hj, hget'⟩ := List.getElem_of_mem hm
  have hij : j ≠ i := fun h => hmn (by rw [← hget', ← hget]; simp only [h])
  have hidx : (nodesOf rd).findIdx? (fun x => decide (x = n)) = some i := by
    rw [List.findIdx?_eq_some_iff_getElem]
    refine ⟨hi, by simp [hget], fun l hl hfound => ?_⟩
    have heq : (nodesOf rd)[l] = (nodesOf rd)[i] := (of_decide_eq_true hfound).trans hget.symm
    exact absurd (hnodup.getElem_inj_iff.mp heq) (by omega)
  have hlt : (i + 1) % (nodesOf rd).length < (nodesOf rd).length := Nat.mod_lt _ (by omega)
  have hne : (i + 1) % (nodesOf rd).length ≠ i := by
    rcases Nat.lt_or_ge (i + 1) (nodesOf rd).length with hlt' | hge
    · rw [Nat.mod_eq_of_lt hlt']
      omega
    · rw [show i + 1 = (nodesOf rd).length by omega, Nat.mod_self]
      omega
  have heq : getNextNodeID rd n = (nodesOf rd)[(i + 1) % (nodesOf rd).length] := by
    rw [getNextNodeID, hidx]
    simp only [List.getElem?_eq_getElem hlt, Option.getD_some]
  rw [heq]
  refine ⟨List.getElem_mem hlt, fun hcontra => hne ?_⟩
  exact hnodup.getElem_inj_iff.mp (hcontra.trans hget.symm)

/-- Between the steps of a call that goes on without `n`: the other replicas run and one of them
leads, and no message is lost. -/
structure Led (n : NodeID) (σ : State) : Prop where
  quiet : σ.fates = []
  nodup : (nodesOf σ.cached).Nodup
  mem : n ∈ nodesOf σ.cached
  pos : ∀ x ∈ nodesOf σ.cached, 0 < x
  known : ∀ x ∈ nodesOf σ.cached, x ∈ σ.nodes
  runs : ∀ x, σ.stores x ≠ none ↔ x ∈ nodesOf σ.cached ∧ x ≠ n
  leads : σ.lead ∈ nodesOf σ.cached
  other : σ.lead ≠ n

lemma nodesOf_adjust (σ : State) (id : NodeID) :
    (nodesOf (σ.adjust id).cached).Perm (nodesOf σ.cached) :=
  (perm_adjustLeader id σ.cached.replicas).map _

section Led

variable {n : NodeID} {σ σ' : State} (h : Led n σ)
include h

lemma Led.adjust (id : NodeID) : Led n (σ.adjust id) where
  quiet := h.quiet
  nodup := (nodesOf_adjust σ id).nodup_iff.mpr h.nodup
  mem := (nodesOf_adjust σ id).mem_iff.mpr h.mem
  pos x hx := h.pos x ((nodesOf_adjust σ id).mem_iff.mp hx)
  known x hx := h.known x ((nodesOf_adjust σ id).mem_iff.mp hx)
  runs x := (h.runs x).trans (and_congr_left' (nodesOf_adjust σ id).mem_iff.symm)
  leads := (nodesOf_adjust σ id).mem_iff.mpr h.leads
  other := h.other

lemma Led.regroup (group : List NodeID) : Led n { σ with group } :=
  ⟨h.quiet, h.nodup, h.mem, h.pos, h.known, h.runs, h.leads, h.other⟩

lemma Led.lead_runs : σ.stores σ.lead ≠ none := (h.runs _).mpr ⟨h.leads, h.other⟩

variable {c : Command} (hexec : σ.executeCmd c = .ok σ')
include hexec

/-- Two attempts are enough from a replica that runs. -/
lemma Led.attempts_running (k : ℕ) {id : NodeID} (hid : id ∈ nodesOf σ.cached) (hne : id ≠ n) :
    sendBatchRequestToLeader c (k + 2) id σ = .ok () (σ'.adjust σ.lead) := by
  by_cases hlead : σ.lead = id
  · rw [attempt_leader (k + 1) h.quiet (h.known id hid) (hlead ▸ h.lead_runs) hlead hexec, hlead]
  · rw [attempt_follower (k + 1) h.quiet (h.known id hid) ((h.runs id).mpr ⟨hid, hne⟩) hlead
      (h.pos _ h.leads)]
    exact attempt_leader k h.quiet (h.known _ h.leads) h.lead_runs rfl hexec

/-- The request reaches the leader. -/
lemma Led.toLeader : toLeader c σ = .ok () (σ'.adjust σ.lead) := by
  rw [Removal.toLeader, run_bind_get]
  cases hnodes : nodesOf σ.cached with
  | nil => exact absurd h.mem (hnodes ▸ List.not_mem_nil)
  | cons id l =>
    have hid : id ∈ nodesOf σ.cached := hnodes ▸ List.mem_cons_self
    by_cases hn : id = n
    · -- the node that has given up its replica may be the first one of the descriptor
      obtain ⟨hnext, hne⟩ := getNextNodeID_ne h.nodup hid h.leads (hn ▸ h.other)
      have hmissing : σ.stores id = none := by
        by_contra hrun
        exact ((h.runs id).mp hrun).2 hn
      show sendBatchRequestToLeader c (20 + 1) id σ = _
      rw [attempt_missing 20 h.quiet (h.known id hid) hmissing (h.known _ hnext)]
      exact h.attempts_running hexec 18 hnext (hn ▸ hne)
    · exact h.attempts_running hexec 19 hid hn

end Led

section Success

variable {n : NodeID} {σ : State}

lemma Healthy.led (h : Healthy n σ) (ha : Able n σ) (hfates : σ.fates = []) :
    Led n (σ.removed n) :=
  ⟨hfates, h.nodup, h.mem, h.pos, h.known, stores_removed h, ha.leads, ha.other⟩

/-- After the second step. -/
def State.expelled (σ : State) (n : NodeID) : State :=
  { σ with group := σ.group.filter fun y => y ≠ n }

/-- After the third step. -/
def State.applied (σ : State) (rd : RangeDescriptor) : State :=
  { σ with stores := fun y => if y ∈ σ.group then (σ.stores y).map fun _ => rd else σ.stores y }

/-- The members that are left all run. -/
lemma commits_expelled (h : Led n σ) (hgroup : ∀ x, x ∈ σ.group ↔ x ∈ nodesOf σ.cached) :
    (σ.expelled n).Commits := by
  have hrunning : (σ.expelled n).running = (σ.expelled n).group := by
    refine List.filter_eq_self.mpr fun x hx => ?_
    have hx' : x ∈ σ.group ∧ x ≠ n := by simpa [State.expelled] using hx
    exact Option.isSome_iff_ne_none.mpr ((h.runs x).mpr ⟨(hgroup x).mp hx'.1, hx'.2⟩)
  have hlead : σ.lead ∈ (σ.expelled n).group := by
    simpa [State.expelled, h.other] using (hgroup _).mpr h.leads
  have hpos := List.length_pos_of_mem hlead
  rw [State.commits_iff, hrunning]
  omega

/-- After the last step. -/
def State.stored (σ : State) (rd : RangeDescriptor) : State := { σ with etcd := rd, cached := rd }

lemma setRangeDescriptors_ok (hfates : σ.fates = []) (rd : RangeDescriptor) :
    setRangeDescriptors rd σ = .ok () (σ.stored rd) := by
  rw [setRangeDescriptors, run_bind_ok (nextFate_quiet hfates)]
  rfl

/-- When the group is the running replicas, the last two steps leave no trace of `n`. -/
lemma done_stored (h : Led n σ) (hgroup : ∀ x, x ∈ σ.group ↔ x ∈ nodesOf σ.cached ∧ x ≠ n)
    {rd : RangeDescriptor} (hrd : n ∉ nodesOf rd) (id : NodeID) :
    Done n (((σ.applied rd).adjust id).stored rd) where
  gone := by
    have hgone : σ.stores n = none := by
      by_contra hrun
      exact ((h.runs n).mp hrun).2 rfl
    show (if n ∈ σ.group then (σ.stores n).map fun _ => rd else σ.stores n) = none
    rw [hgone, Option.map_none, ite_self]
  group hn := ((hgroup n).mp hn).2 rfl
  stores x rd' hx := by
    -- every replica that runs is a member, and has applied the new descriptor
    have hx' : (if x ∈ σ.group then (σ.stores x).map fun _ => rd else σ.stores x) = some rd' := hx
    by_cases hmem : x ∈ σ.group
    · rw [if_pos hmem, Option.map_eq_some_iff] at hx'
      obtain ⟨_, _, rfl⟩ := hx'
      exact hrd
    · rw [if_neg hmem] at hx'
      exact absurd ((hgroup x).mpr ((h.runs x).mp (by simp [hx']))) hmem
  cached := hrd
  etcd := hrd

/-- The steps after the first one succeed when the leader can commit. -/
lemma finish_done (h : Led n σ) (hgroup : ∀ x, x ∈ σ.group ↔ x ∈ nodesOf σ.cached)
    (hcommits : σ.Commits) {repls : List ReplicaDescriptor} (hrepls : ∀ r ∈ repls, r.nodeID ≠ n) :
    ∃ σ', finish n repls σ = .ok () σ' ∧ Done n σ' := by
  let σ₂ := (σ.expelled n).adjust σ.lead
  let nrd := { σ₂.cached with replicas := repls }
  have hled : Led n σ₂ := (h.regroup _).adjust _
  have hsecond : toLeader (.deleteRaftConf n) σ = .ok () σ₂ := by
    refine h.toLeader ?_
    rw [State.executeCmd, if_pos hcommits]
    rfl
  have hthird : toLeader (.updateRange nrd) σ₂ = .ok () ((σ₂.applied nrd).adjust σ.lead) :=
    hled.toLeader (if_pos (commits_expelled h hgroup))
  refine ⟨((σ₂.applied nrd).adjust σ.lead).stored nrd, ?_, done_stored hled (fun x => ?_) ?_ _⟩
  · rw [finish, run_bind_ok hsecond, run_bind_get]
    exact (run_bind_ok hthird).trans
      (setRangeDescriptors_ok (σ := (σ₂.applied nrd).adjust σ.lead) hled.quiet nrd)
  · rw [(nodesOf_adjust (σ.expelled n) σ.lead).mem_iff]
    simp [σ₂, State.adjust, State.expelled, hgroup]
  · intro hn
    obtain ⟨r, hr, hrn⟩ := List.mem_map.mp hn
    exact hrepls r hr hrn

/-- **A call that loses no message succeeds** on a range that can go on without the replica, and
leaves no trace of it. -/
lemma deleteReplica_done (h : Healthy n σ) (ha : Able n σ) (hfates : σ.fates = []) :
    ∃ σ', deleteReplica n σ = .ok () σ' ∧ Done n σ' := by
  rw [deleteReplica_eq h.mem, run_bind_ok (sendBatchRequest_removed h (nextFate_quiet hfates))]
  refine finish_done (h.led ha hfates) (fun x => h.group.mem_iff)
    ((commits_removed h).mpr ha.majority) fun r hr => ?_
  exact of_decide_eq_true (List.mem_filter.mp hr).2

end Success

/-! ### Calls that are made again -/

/-- No leader runs, or it cannot commit. -/
def Stuck (σ : State) : Prop := σ.stores σ.lead = none ∨ ¬ σ.Commits

/-- Then the steps after the first one do not succeed. -/
lemma Stuck.finish {n : NodeID} {repls : List ReplicaDescriptor} {σ σ' : State} (h : Stuck σ) :
    finish n repls σ ≠ .ok () σ' := by
  intro hrun
  have hconf : Triple Stuck (toLeader (.deleteRaftConf n)) (fun _ => Stuck) fun _ => Stuck := by
    refine triple_toLeader (fun _ _ h => h) fun σ x σ' h hsend => ?_
    obtain ⟨rfl, hruns, hexec⟩ := send_ok hsend
    have hstuck := h.resolve_left hruns
    rw [State.executeCmd, if_neg hstuck] at hexec
    cases hexec
    exact ⟨h, h⟩
  have hupdate : ∀ rd, Triple Stuck (toLeader (.updateRange rd)) (fun _ _ => False)
      fun _ => Stuck := by
    refine fun rd => triple_toLeader (Q := fun _ => False) (fun _ _ h => h) fun σ x σ' h hsend => ?_
    obtain ⟨rfl, hruns, hexec⟩ := send_ok hsend
    rw [State.executeCmd, if_neg (h.resolve_left hruns)] at hexec
    cases hexec
  have hall : Triple Stuck (Removal.finish n repls) (fun _ _ => False) fun _ => Stuck :=
    hconf.bind fun _ => Triple.get_bind fun _ =>
      (hupdate _).bind fun _ _ h => h.elim
  exact hall.of_ok h hrun

/-- A call with no message lost succeeds only on a range that can go on without the replica. -/
lemma able_of_deleteReplica {n : NodeID} {σ σ' : State} (h : Healthy n σ) (hfates : σ.fates = [])
    (hrun : deleteReplica n σ = .ok () σ') : Able n σ := by
  have hfirst := sendBatchRequest_removed h (nextFate_quiet hfates)
  rw [deleteReplica_eq h.mem, run_bind_ok hfirst] at hrun
  have hfree : ¬ Stuck (σ.removed n) := fun hstuck => hstuck.finish hrun
  obtain ⟨hleads, hcommits⟩ := not_or.mp hfree
  obtain ⟨hmem, hne⟩ := (stores_removed h _).mp hleads
  exact ⟨hmem, hne, (commits_removed h).mp (not_not.mp hcommits)⟩

/-- Messages that are lost change nothing. -/
lemma sendBatchRequest_lost (exec : State → Except NodeError State) {id : NodeID} (k : ℕ)
    {σ : State} {fates : List Fate} (hid : id ∈ σ.nodes)
    (hfates : σ.fates = List.replicate k .lost ++ fates) :
    sendBatchRequest exec id k σ = .error .sendFail { σ with fates } := by
  induction k generalizing σ with
  | zero =>
    obtain rfl : σ.fates = fates := hfates
    rfl
  | succ k ih =>
    have hfate : nextFate σ = .ok .lost { σ with fates := List.replicate k .lost ++ fates } := by
      rw [nextFate, hfates]
      rfl
    rw [sendBatchRequest, run_bind_get, if_neg (not_not.mpr hid), run_bind_ok hfate]
    exact ih hid rfl

/-- Without a connection the request is given up. -/
lemma toLeader_noClient {c : Command} {σ σ' : State} {id : NodeID} {l : List NodeID}
    (hnodes : nodesOf σ.cached = id :: l) (hid : id ∈ σ.nodes)
    (hfate : nextFate σ = .ok .noClient σ') : toLeader c σ = .error .sendFail σ' := by
  rw [toLeader, run_bind_get, hnodes]
  show sendBatchRequestToLeader c (20 + 1) id σ = _
  rw [sendBatchRequestToLeader, run_bind_get, run_bind_get, if_neg (not_not.mpr hid),
    run_bind_ok hfate]
  rfl

/-- A later call during which no message is lost succeeds and leaves no trace of the replica. -/
def Resumes (n : NodeID) (σ : State) : Prop :=
  ∃ σ', deleteReplica n { σ with fates := [] } = .ok () σ' ∧ Done n σ'

/-- **When a removal can be resumed**: the failed call has not reached the store of the node, and
the other replicas can go on without it. -/
theorem deleteReplica_resumes_iff {n : NodeID} {σ₀ σ₁ : State} {e : Failure} (h : Healthy n σ₀)
    (hfail : deleteReplica n σ₀ = .error e σ₁) :
    Resumes n σ₁ ↔ σ₁.stores n ≠ none ∧ Able n σ₀ := by
  constructor
  · rintro ⟨σ', hrun, -⟩
    have hkept : ¬ Gone n σ₁ := fun hgone => Gone.deleteReplica (σ := { σ₁ with fates := [] })
      hgone σ' hrun
    obtain ⟨fates, rfl⟩ := (deleteReplica_error hfail).resolve_right hkept
    have hhealthy : Healthy n { σ₀ with fates := [] } :=
      ⟨h.nodup, h.mem, h.pos, h.known, h.runs, h.lists, h.group⟩
    obtain ⟨hleads, hother, hmajority⟩ := able_of_deleteReplica hhealthy rfl hrun
    exact ⟨hkept, hleads, hother, hmajority⟩
  · rintro ⟨hkept, ha⟩
    obtain ⟨fates, rfl⟩ := (deleteReplica_error hfail).resolve_right hkept
    exact deleteReplica_done ⟨h.nodup, h.mem, h.pos, h.known, h.runs, h.lists, h.group⟩
      ⟨ha.leads, ha.other, ha.majority⟩ rfl

def Raft.majority : Raft where
  commits group running := group.length < 2 * running.length
  commits_iff _ _ := decide_eq_true_iff

/-- Three replicas, the first one the leader. -/
def threeReplicas (fates : List Fate) : State :=
  let rd : RangeDescriptor :=
    { rangeID := 1, startKey := [], endKey := [], replicas := [⟨1, 1⟩, ⟨2, 2⟩, ⟨3, 3⟩] }
  { raft := .majority, nodes := [1, 2, 3],
    stores := fun x => if x ∈ nodesOf rd then some rd else none,
    group := [1, 2, 3], lead := 1, heir := 3, cached := rd, etcd := rd, fates := fates }

lemma threeReplicas_healthy (fates : List Fate) : Healthy 2 (threeReplicas fates) where
  nodup := show ([1, 2, 3] : List NodeID).Nodup by decide
  mem := show 2 ∈ ([1, 2, 3] : List NodeID) by decide
  pos := by
    -- not by `decide`, which would try every node
    show ∀ x ∈ ([1, 2, 3] : List NodeID), 0 < x
    simp only [List.forall_mem_cons]
    exact ⟨by decide, by decide, by decide, by simp⟩
  known := fun x hx => hx
  runs := fun x => by simp [threeReplicas]
  lists := by
    rintro rd hrd
    cases hrd
    decide
  group := List.Perm.refl _

/-- Every message of the first call is lost; the second one does the work. -/
theorem deleteReplica_resumes_lost :
    deleteReplica 2 (threeReplicas (List.replicate attempts .lost)) =
      .error .sendFail (threeReplicas []) ∧ Resumes 2 (threeReplicas []) :=
  have hfail : deleteReplica 2 (threeReplicas (List.replicate attempts .lost)) =
      .error .sendFail (threeReplicas []) := by
    have hlost : sendBatchRequest (·.executeRemoveReplica 2 2) 2 attempts
        (threeReplicas (List.replicate attempts .lost)) = .error .sendFail (threeReplicas []) :=
      sendBatchRequest_lost _ attempts
        ((threeReplicas_healthy _).known 2 (threeReplicas_healthy _).mem) (List.append_nil _).symm
    rw [deleteReplica_eq (threeReplicas_healthy _).mem, run_bind_error hlost]
  ⟨hfail, (deleteReplica_resumes_iff (threeReplicas_healthy _) hfail).mpr
    ⟨by decide, by decide, by decide, by decide⟩⟩

/-- The store of node 2 gives up its replica, and then the leader cannot be connected. No later
call succeeds. -/
theorem deleteReplica_interrupted :
    let σ₀ := threeReplicas [.delivered, .noClient]
    let σ₁ := (threeReplicas []).removed 2
    Healthy 2 σ₀ ∧ Able 2 σ₀ ∧ deleteReplica 2 σ₀ = .error .sendFail σ₁ ∧ ¬ Resumes 2 σ₁ := by
  have hhealthy := threeReplicas_healthy [.delivered, .noClient]
  have hfirst : sendBatchRequest (·.executeRemoveReplica 2 2) 2 attempts
      (threeReplicas [.delivered, .noClient]) = .ok () ((threeReplicas [.noClient]).removed 2) :=
    sendBatchRequest_removed hhealthy rfl
  have hsecond : toLeader (.deleteRaftConf 2) ((threeReplicas [.noClient]).removed 2) =
      .error .sendFail ((threeReplicas []).removed 2) :=
    toLeader_noClient (l := [2, 3]) rfl List.mem_cons_self rfl
  have hgone : Gone 2 ((threeReplicas []).removed 2) := by simp [Gone, State.removed]
  refine ⟨hhealthy, ⟨by decide, by decide, by decide⟩, ?_, ?_⟩
  · rw [deleteReplica_eq hhealthy.mem, run_bind_ok hfirst, finish, run_bind_error hsecond]
  · rintro ⟨σ', hrun, -⟩
    exact hgone.deleteReplica σ' hrun

end Ancestor.Removal
