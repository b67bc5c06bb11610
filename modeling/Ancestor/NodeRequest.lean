import Ancestor.Lib.Hoare
import Ancestor.Replica

/-!
Requests of the client to the node that leads a range (`client/base.go`, `client/wrapper.go`,
`client/range_cache.go`).

The loop of `doNodeRequest` goes from node to node until one of them answers, or until the
retries run out. It sends the request again after an answer that does not say whether the
request has been carried out.
-/

namespace Ancestor.Client

open Hoare

/-- What is at the bottom of an error of the client. -/
inductive Cause
  | node (e : Err)
  | rpcConnect
  /-- The text is that of the error of the node, or it says that the retries have run out. -/
  | needRetry (e : Option Err)
  | invalidState
  /-- An error of the caches or of the placement driver. -/
  | lookup
  | notExist (key : Key)
  | invalidKey
  | invalidValue
  | invalidResponse
  | panic (msg : String)
  deriving DecidableEq, Repr

/-- An error, and whether `errors.Trace` has wrapped it, which a type assertion sees. -/
structure Error where
  cause : Cause
  traced : Bool := false
  deriving DecidableEq, Repr

def Error.trace (e : Error) : Error := { e with traced := true }

abbrev CM (W : Type) := EStateM Error W

/-- `errors.Trace` of what a call returns. -/
def traced {W α : Type} (m : CM W α) : CM W α := fun w =>
  match m w with
  | .ok a w => .ok a w
  | .error e w => .error e.trace w

lemma traced_error {W α : Type} {m : CM W α} {e : Error} {u u' : W} (h : m u = .error e u') :
    traced m u = .error e.trace u' := by
  rw [traced, h]

lemma traced_ok {W α : Type} {m : CM W α} {a : α} {u u' : W} (h : m u = .ok a u') :
    traced m u = .ok a u' := by
  rw [traced, h]

/-! ### Descriptors -/

structure RangeDesc where
  leaderIndex : ℕ := 0
  desc : RangeDescriptor
  deriving DecidableEq, Repr

namespace RangeDesc

/-- The node of a replica; an index out of range is a panic. -/
def nodeAt {W : Type} (rd : RangeDesc) (index : ℕ) : CM W (NodeID × ℕ) :=
  match rd.desc.replicas[index]? with
  | some r => return (r.nodeID, index)
  | none => throw ⟨.panic "index out of range", false⟩

def getLeaderNodeID {W : Type} (rd : RangeDesc) : CM W (NodeID × ℕ) := rd.nodeAt rd.leaderIndex

lemma getLeaderNodeID_ok {W : Type} {rd : RangeDesc} {r : ReplicaDescriptor} {w : W}
    (h : rd.desc.replicas[rd.leaderIndex]? = some r) :
    rd.getLeaderNodeID w = .ok (r.nodeID, rd.leaderIndex) w := by
  rw [getLeaderNodeID, nodeAt, h]
  rfl

def getNextNodeID {W : Type} (rd : RangeDesc) (oldIndex : ℕ) : CM W (NodeID × ℕ) :=
  rd.nodeAt ((oldIndex + 1) % rd.desc.replicas.length)

def setLeaderNodeIdx (rd : RangeDesc) (index : ℕ) : RangeDesc := { rd with leaderIndex := index }

/-- An ID that is not among the replicas leaves the leader as it is and answers 0. -/
def setLeaderNodeID (rd : RangeDesc) (nodeID : NodeID) : RangeDesc × ℕ :=
  match rd.desc.replicas.findIdx? fun r => decide (r.nodeID = nodeID) with
  | some i => (rd.setLeaderNodeIdx i, i)
  | none => (rd, 0)

end RangeDesc

/-! ### Replies -/

/-- What the sender of a request gets back: the connection breaks, or the node answers with an
error or with success. -/
inductive Reply
  | connectError
  | answer (e : Option Err)
  deriving DecidableEq, Repr

def runWithResult {W : Type} : Reply → CM W Unit
  | .connectError => throw ⟨.rpcConnect, true⟩
  | .answer none => return
  | .answer (some e) =>
    match e with
    | .writeTooOld _ _ => throw ⟨.needRetry (some e), true⟩
    | .transactionStatus _ _ true => throw ⟨.needRetry (some e), true⟩
    | _ => throw ⟨.node e, true⟩

lemma runWithResult_error {W : Type} (e : Err) (w : W) :
    ∃ e', runWithResult (.answer (some e)) w = .error e' w := by
  unfold runWithResult
  simp only
  split <;> exact ⟨_, rfl⟩

/-! ### The retry loop -/

/-- The client's surroundings, in a world `W`. -/
structure Base (W : Type) where
  getRangeDescFromCache : Key → CM W RangeDesc
  clearRangeCache : CM W Unit
  getNodeConn : NodeID → CM W Unit
  isStop : CM W Bool

def maxRetries : ℕ := 50

section

variable {W : Type} (b : Base W) (key : Key)
  (call : NodeID → RangeDescriptor → CM W Unit)

/-- The loop with `n` attempts left, at replica `i` on node `id`. -/
def nodeLoop : ℕ → RangeDesc → NodeID → ℕ → CM W RangeDesc
  | 0, _, _, _ => throw ⟨.needRetry none, false⟩
  | n + 1, rd, id, i => do
    traced (b.getNodeConn id)
    match ← outcome (call id rd.desc) with
    | .ok _ => return rd.setLeaderNodeIdx i
    | .error e =>
      if ← b.isStop then throw ⟨.invalidState, false⟩
      else
        match e.cause with
        | .node .readPriority => nodeLoop n rd id i
        | .rpcConnect =>
          let (id, i) ← rd.getNextNodeID i
          nodeLoop n rd id i
        | .node (.notLeader nodeID) =>
          if nodeID ≤ 0 then
            let (id, i) ← rd.getNextNodeID i
            nodeLoop n rd id i
          else
            let (rd, i) := rd.setLeaderNodeID nodeID
            nodeLoop n rd nodeID i
        | .node (.rangeNotFound _) =>
          b.clearRangeCache
          let rd ← traced (b.getRangeDescFromCache key)
          let (id, i) ← rd.getLeaderNodeID
          nodeLoop n rd id i
        | _ => throw e.trace

-- `retry.Next` lets the first attempt and fifty more through.
def doNodeRequest : CM W RangeDesc := do
  let rd ← traced (b.getRangeDescFromCache key)
  let (id, i) ← rd.getLeaderNodeID
  nodeLoop b key call (maxRetries + 1) rd id i

end

/-! ### One turn of the loop -/

section Turn

variable {W : Type} {b : Base W} {key : Key} {call : NodeID → RangeDescriptor → CM W Unit} {n : ℕ}
  {rd : RangeDesc} {id : NodeID} {i : ℕ} {w w₁ w₂ : W} (hconn : b.getNodeConn id w = .ok () w₁)

include hconn

lemma nodeLoop_ok (hcall : call id rd.desc w₁ = .ok () w₂) :
    nodeLoop b key call (n + 1) rd id i w = .ok (rd.setLeaderNodeIdx i) w₂ := by
  have hout : outcome (call id rd.desc) w₁ = .ok (.ok ()) w₂ := by rw [outcome, hcall]
  rw [nodeLoop, run_bind_ok (traced_ok hconn), run_bind_ok hout]
  rfl

variable {e : Error} (hcall : call id rd.desc w₁ = .error e w₂)
  (hstop : b.isStop w₂ = .ok false w₂)

include hcall hstop

/-- A key that does not exist is not looked for again. -/
lemma nodeLoop_notExist {k : Key} (he : e.cause = .notExist k) :
    nodeLoop b key call (n + 1) rd id i w = .error e.trace w₂ := by
  have hout : outcome (call id rd.desc) w₁ = .ok (.error e) w₂ := by rw [outcome, hcall]
  rw [nodeLoop, run_bind_ok (traced_ok hconn), run_bind_ok hout]
  simp only
  rw [run_bind_ok hstop]
  simp only [he, Bool.false_eq_true, if_false]
  rfl

/-- After a range was not found the cache is cleared, and the next attempt is made with what the
cache has then. -/
lemma nodeLoop_rangeNotFound {rangeID : RangeID} {w₃ w₄ : W} {rd' : RangeDesc}
    {r' : ReplicaDescriptor} (he : e.cause = .node (.rangeNotFound rangeID))
    (hclear : b.clearRangeCache w₂ = .ok () w₃)
    (hrd' : b.getRangeDescFromCache key w₃ = .ok rd' w₄)
    (hrep' : rd'.desc.replicas[rd'.leaderIndex]? = some r') :
    nodeLoop b key call (n + 1) rd id i w =
      nodeLoop b key call n rd' r'.nodeID rd'.leaderIndex w₄ := by
  have hout : outcome (call id rd.desc) w₁ = .ok (.error e) w₂ := by rw [outcome, hcall]
  rw [nodeLoop, run_bind_ok (traced_ok hconn), run_bind_ok hout]
  simp only
  rw [run_bind_ok hstop]
  simp only [he, Bool.false_eq_true, if_false]
  rw [run_bind_ok hclear, run_bind_ok (traced_ok hrd'),
    run_bind_ok (RangeDesc.getLeaderNodeID_ok hrep')]

end Turn

/-! ### The first attempt -/

section First

variable {W : Type} {b : Base W} {key : Key} {call : NodeID → RangeDescriptor → CM W Unit}
  {w w₁ w₂ w₃ : W} {rd : RangeDesc} {r : ReplicaDescriptor}
  (hrd : b.getRangeDescFromCache key w = .ok rd w₁)
  (hrep : rd.desc.replicas[rd.leaderIndex]? = some r)
  (hconn : b.getNodeConn r.nodeID w₁ = .ok () w₂)

include hrd hrep

lemma doNodeRequest_first : doNodeRequest b key call w =
    nodeLoop b key call (maxRetries + 1) rd r.nodeID rd.leaderIndex w₁ := by
  rw [doNodeRequest, run_bind_ok (traced_ok hrd), run_bind_ok (RangeDesc.getLeaderNodeID_ok hrep)]

include hconn

lemma doNodeRequest_ok (hcall : call r.nodeID rd.desc w₂ = .ok () w₃) :
    doNodeRequest b key call w = .ok (rd.setLeaderNodeIdx rd.leaderIndex) w₃ := by
  rw [doNodeRequest_first hrd hrep, nodeLoop_ok hconn hcall]

lemma doNodeRequest_notExist {e : Error} {k : Key}
    (hcall : call r.nodeID rd.desc w₂ = .error e w₃) (he : e.cause = .notExist k)
    (hstop : b.isStop w₃ = .ok false w₃) :
    doNodeRequest b key call w = .error e.trace w₃ := by
  rw [doNodeRequest_first hrd hrep, nodeLoop_notExist hconn hcall hstop he]

/-- The second attempt succeeds. -/
lemma doNodeRequest_refresh {e : Error} {rangeID : RangeID} {w₄ w₅ w₆ w₇ : W} {rd' : RangeDesc}
    {r' : ReplicaDescriptor} (hcall : call r.nodeID rd.desc w₂ = .error e w₃)
    (he : e.cause = .node (.rangeNotFound rangeID)) (hstop : b.isStop w₃ = .ok false w₃)
    (hclear : b.clearRangeCache w₃ = .ok () w₄)
    (hrd' : b.getRangeDescFromCache key w₄ = .ok rd' w₅)
    (hrep' : rd'.desc.replicas[rd'.leaderIndex]? = some r')
    (hconn' : b.getNodeConn r'.nodeID w₅ = .ok () w₆)
    (hcall' : call r'.nodeID rd'.desc w₆ = .ok () w₇) :
    doNodeRequest b key call w = .ok (rd'.setLeaderNodeIdx rd'.leaderIndex) w₇ := by
  rw [doNodeRequest_first hrd hrep,
    nodeLoop_rangeNotFound hconn hcall hstop he hclear hrd' hrep', maxRetries,
    nodeLoop_ok hconn' hcall']

end First

/-! ### A rule for the loop -/

/-- The panic of a descriptor without replicas. -/
def outOfRange : Error := ⟨.panic "index out of range", false⟩

section Rule

variable {W α : Type} {P Q : W → Prop} {D : RangeDescriptor → Prop} {G : Error → Prop}

lemma triple_traced {m : CM W α} {R : α → W → Prop} (hG : ∀ e, G e → G e.trace)
    (h : Triple P m R fun e w => G e ∧ P w) :
    Triple P (traced m) R fun e w => G e ∧ P w := by
  intro w hw
  have hm := h w hw
  unfold Client.traced
  cases hrun : m w with
  | ok a w' => simpa only [hrun] using hm
  | error e w' =>
    simp only [hrun] at hm
    exact ⟨hG e hm.1, hm.2⟩

lemma triple_nodeAt {rd : RangeDesc} {i : ℕ}
    (h : i < rd.desc.replicas.length ∨ G outOfRange) :
    Triple P (rd.nodeAt i) (fun _ => P) fun e w => G e ∧ P w := by
  unfold RangeDesc.nodeAt
  cases hi : rd.desc.replicas[i]? with
  | some r => exact triple_pure fun _ hw => hw
  | none =>
    have hle := List.getElem?_eq_none_iff.mp hi
    exact triple_throw fun _ hw => ⟨h.resolve_left (not_lt.mpr hle), hw⟩

/-- What the loop needs of the client's surroundings. `P` stands for the worlds between two
attempts, `D` for the descriptors that are used and `G` for the errors a request may end with. -/
structure Base.Supports (b : Base W) (key : Key) (P : W → Prop) (D : RangeDescriptor → Prop)
    (G : Error → Prop) : Prop where
  cache : Triple P (b.getRangeDescFromCache key)
    (fun rd w => (D rd.desc ∧ (rd.leaderIndex < rd.desc.replicas.length ∨ G outOfRange)) ∧ P w)
    fun e w => G e ∧ P w
  clear : Triple P b.clearRangeCache (fun _ => P) fun e w => G e ∧ P w
  conn : ∀ id, Triple P (b.getNodeConn id) (fun _ => P) fun e w => G e ∧ P w
  stop : Triple P b.isStop (fun _ => P) fun e w => G e ∧ P w
  replicas : ∀ rd, D rd → rd.replicas ≠ [] ∨ G outOfRange
  trace : ∀ e, G e → G e.trace
  retries : G ⟨.needRetry none, false⟩
  stopped : G ⟨.invalidState, false⟩

variable {b : Base W} {key : Key} {call : NodeID → RangeDescriptor → CM W Unit}

/-- The start of the loop, and of every attempt after a range was not found. -/
lemma Base.Supports.lead (h : b.Supports key P D G) {f : RangeDesc → NodeID × ℕ → CM W α}
    {R : α → W → Prop} (hf : ∀ rd x, D rd.desc → Triple P (f rd x) R fun e w => G e ∧ P w) :
    Triple P (traced (b.getRangeDescFromCache key) >>= fun rd => rd.getLeaderNodeID >>= f rd) R
      fun e w => G e ∧ P w := by
  refine (triple_traced h.trace h.cache).bind fun rd w hw => ?_
  exact (triple_nodeAt hw.1.2).bind (fun x => hf rd x hw.1.1) w hw.2

variable (h : b.Supports key P D G)
  (hcall : ∀ id rd, D rd → Triple P (call id rd) (fun _ => Q) fun e w => G e ∧ P w)

include h hcall

lemma triple_nodeLoop (n : ℕ) {rd : RangeDesc} (hrd : D rd.desc) (id : NodeID) (i : ℕ) :
    Triple P (nodeLoop b key call n rd id i) (fun _ => Q) fun e w => G e ∧ P w := by
  induction n generalizing rd id i with
  | zero => exact triple_throw fun _ hw => ⟨h.retries, hw⟩
  | succ n ih =>
    rw [nodeLoop]
    refine (triple_traced h.trace (h.conn id)).bind fun _ =>
      (hcall id rd.desc hrd).outcome.bind fun r => ?_
    cases r with
    | ok u => exact triple_pure fun _ hw => hw
    | error e =>
      have hnext : Triple P (rd.getNextNodeID i >>= fun x => nodeLoop b key call n rd x.1 x.2)
          (fun _ => Q) fun e w => G e ∧ P w := by
        have hi := (h.replicas _ hrd).imp_left fun hne =>
          Nat.mod_lt (i + 1) (List.length_pos_iff.mpr hne)
        exact (triple_nodeAt hi).bind fun x => ih hrd x.1 x.2
      intro w hw
      refine h.stop.bind (fun stopped => ?_) w hw.2
      split_ifs
      · exact triple_throw fun _ hw => ⟨h.stopped, hw⟩
      split
      · exact ih hrd id i
      · exact hnext
      · split_ifs
        · exact hnext
        · refine ih ?_ _ _
          split <;> exact hrd
      · exact h.clear.bind fun _ => h.lead fun rd x hrd => ih hrd x.1 x.2
      · exact triple_throw fun _ hw' => ⟨h.trace e hw.1, hw'⟩

/-- **The loop keeps what its parts keep.** A call that succeeds ends in `Q`, and so does the
request. -/
theorem triple_doNodeRequest :
    Triple P (doNodeRequest b key call) (fun _ => Q) fun e w => G e ∧ P w :=
  h.lead fun _ x hrd => triple_nodeLoop h hcall _ hrd x.1 x.2

end Rule

/-! ### Requests whose errors are not looked at -/

section Keeps

variable {W α : Type} {P Q : W → Prop}

/-- From `P`, success ends in `Q` and failure in `P`. -/
def Keeps (P Q : W → Prop) (m : CM W α) : Prop := Triple P m (fun _ => Q) fun _ => P

lemma Keeps.triple {m : CM W α} (h : Keeps P Q m) :
    Triple P m (fun _ => Q) fun _ w => True ∧ P w :=
  h.imp (fun _ hw => hw) (fun _ _ hw => hw) fun _ _ hw => ⟨trivial, hw⟩

variable {b : Base W} {key : Key} {call : NodeID → RangeDescriptor → CM W Unit}

theorem keeps_doNodeRequest (hcache : Keeps P P (b.getRangeDescFromCache key))
    (hclear : Keeps P P b.clearRangeCache) (hconn : ∀ id, Keeps P P (b.getNodeConn id))
    (hstop : Keeps P P b.isStop) (hcall : ∀ id rd, Keeps P Q (call id rd)) :
    Keeps P Q (doNodeRequest b key call) := by
  have hsup : b.Supports key P (fun _ => True) fun _ => True :=
    { cache := hcache.triple.imp (fun _ hw => hw) (fun _ _ hw => ⟨⟨trivial, .inr trivial⟩, hw⟩)
        fun _ _ hw => hw
      clear := hclear.triple
      conn := fun id => (hconn id).triple
      stop := hstop.triple
      replicas := fun _ _ => .inr trivial
      trace := fun _ _ => trivial
      retries := trivial
      stopped := trivial }
  exact (triple_doNodeRequest hsup fun id rd _ => (hcall id rd).triple).imp (fun _ hw => hw)
    (fun _ _ hw => hw) fun _ _ hw => hw.2

end Keeps

end Ancestor.Client
