import Ancestor.Data
import Ancestor.Lib.Steps
import Mathlib.Data.List.AList

/-!
The heartbeats of a client's transactions (`client/heartbeat.go`).

`add` and `del` pass a transaction or an id to the run loop through channels, and at every tick the
loop hands the transactions of its map to `sendHeartbeat`. All of them look at one flag first, and
the flag says that the heartbeat is stopped from the constructor on: `Open` starts the loop and
leaves the flag. So `add` and `del` pass nothing on, and the loop ends at its first tick.
-/

namespace Ancestor.Client

open Steps

/-! ### The heartbeat -/

inductive HeartbeatCall
  | add (txn : Transaction)
  | del (txnID : Key)
  deriving DecidableEq, Repr

/-- Where the run loop stands: not started, at its `select`, at the lock of the tick's case, or
gone. -/
inductive LoopAt
  | start | select | lock | exit
  deriving DecidableEq, Repr

/-- `sending` is the call that waits for room in its channel, and holds the lock meanwhile. What the
loop has handed to `sendHeartbeat` is in `jobs`, tick by tick. -/
structure Heartbeat where
  addChn : List Transaction := []
  delChn : List Key := []
  txnMap : AList (fun _ : Key => Transaction) := ∅
  isStop : Bool := true
  sending : Option HeartbeatCall := none
  loop : LoopAt := .start
  jobs : List (List Transaction) := []

def newHeartbeat : Heartbeat := {}

namespace Heartbeat

variable (h : Heartbeat)

def start : Heartbeat := { h with loop := .select }

/-- A send to a channel with room for one. -/
def send : HeartbeatCall → Heartbeat
  | .add txn =>
    if h.addChn.length < 1 then { h with addChn := h.addChn ++ [txn] }
    else { h with sending := some (.add txn) }
  | .del txnID =>
    if h.delChn.length < 1 then { h with delChn := h.delChn ++ [txnID] }
    else { h with sending := some (.del txnID) }

/-- The waiting call, once there is room. -/
def wake : Heartbeat :=
  match h.sending with
  | none => h
  | some c => { h with sending := none }.send c

def txns (order : List Key) : List Transaction := order.filterMap fun id => h.txnMap.lookup id

inductive Act
  /-- `add` or `del`, from any goroutine -/
  | call (c : HeartbeatCall)
  | recvAdd
  | recvDel
  /-- the loop takes the ticker's case -/
  | tick
  /-- it has the lock, and walks over the map in this order -/
  | beat (order : List Key)
  | stop
  deriving DecidableEq, Repr

def step : Act → Option Heartbeat
  | .call c =>
    if h.sending ≠ none then none
    else if h.isStop then some h
    else some (h.send c)
  | .recvAdd =>
    match h.addChn with
    | [] => none
    | txn :: rest =>
      if h.loop = .select then
        some { h with addChn := rest, txnMap := h.txnMap.insert txn.id txn }.wake
      else none
  | .recvDel =>
    match h.delChn with
    | [] => none
    | txnID :: rest =>
      if h.loop = .select then
        some { h with delChn := rest, txnMap := h.txnMap.erase txnID }.wake
      else none
  | .tick => if h.loop = .select then some { h with loop := .lock } else none
  | .beat order =>
    if h.loop = .lock ∧ h.sending = none ∧ order.Perm h.txnMap.keys then
      if h.isStop then some { h with loop := .exit }
      else if (h.txns order).length > 0 then
        some { h with loop := .select, jobs := h.jobs ++ [h.txns order] }
      else some { h with loop := .select }
    else none
  | .stop => if h.sending ≠ none then none else some { h with isStop := true }

end Heartbeat

/-- The heartbeat as `Open` leaves it. -/
def openHeartbeat : Heartbeat := newHeartbeat.start

/-! ### The transactions that are open -/

/-- The transactions added and not deleted since. -/
def HeartbeatCall.opens (o : Key → Option Transaction) : HeartbeatCall → Key → Option Transaction
  | .add txn => Function.update o txn.id (some txn)
  | .del txnID => Function.update o txnID none

def Heartbeat.Act.opens (o : Key → Option Transaction) : Heartbeat.Act → Key → Option Transaction
  | .call c => c.opens o
  | _ => o

def opened (l : List Heartbeat.Act) : Key → Option Transaction :=
  l.foldl Heartbeat.Act.opens fun _ => none

namespace Heartbeat

/-- The loop has consumed the channels. -/
def Drained (h : Heartbeat) : Prop := h.addChn = [] ∧ h.delChn = [] ∧ h.sending = none

/-- The map has the open transactions, and a tick hands these on. -/
def Covers (h : Heartbeat) (o : Key → Option Transaction) : Prop :=
  h.Drained →
    (∀ id, h.txnMap.lookup id = o id) ∧
    ∀ order h', h.step (.beat order) = some h' →
      ∀ txn, (∃ txns ∈ h'.jobs.drop h.jobs.length, txn ∈ txns) ↔ o txn.id = some txn

/-! ### Nothing gets past the flag -/

structure Idle (h : Heartbeat) : Prop where
  isStop : h.isStop = true
  drained : h.Drained
  txnMap : h.txnMap = ∅

lemma openHeartbeat_idle : openHeartbeat.Idle := ⟨rfl, ⟨rfl, rfl, rfl⟩, rfl⟩

lemma Idle.step {h h' : Heartbeat} {a : Act} (hi : h.Idle) (hs : h.step a = some h') :
    h'.Idle ∧ h'.jobs = h.jobs := by
  obtain ⟨hstop, ⟨hadd, hdel, hsend⟩, hmap⟩ := hi
  cases a with
  | call c =>
    simp only [Heartbeat.step, hsend, hstop, ne_eq, not_true_eq_false, if_false, if_true,
      Option.some.injEq] at hs
    rw [← hs]
    exact ⟨⟨hstop, ⟨hadd, hdel, hsend⟩, hmap⟩, rfl⟩
  | recvAdd => simp [Heartbeat.step, hadd] at hs
  | recvDel => simp [Heartbeat.step, hdel] at hs
  | tick =>
    simp only [Heartbeat.step, Option.ite_none_right_eq_some, Option.some.injEq] at hs
    rw [← hs.2]
    exact ⟨⟨hstop, ⟨hadd, hdel, hsend⟩, hmap⟩, rfl⟩
  | beat order =>
    simp only [Heartbeat.step, hstop, if_true, Option.ite_none_right_eq_some,
      Option.some.injEq] at hs
    rw [← hs.2]
    exact ⟨⟨rfl, ⟨hadd, hdel, hsend⟩, hmap⟩, rfl⟩
  | stop =>
    simp only [Heartbeat.step, hsend, ne_eq, not_true_eq_false, if_false, Option.some.injEq] at hs
    rw [← hs]
    exact ⟨⟨rfl, ⟨hadd, hdel, rfl⟩, hmap⟩, rfl⟩

lemma Idle.run {h h' : Heartbeat} {l : List Act} (hi : h.Idle)
    (hrun : run Heartbeat.step h l = some h') : h'.Idle :=
  invariant (fun _ _ _ hi _ hs => (hi.step hs).1) hi
    (along_of_forall (fun _ _ => trivial : ∀ _ _, True) h l) hrun

lemma Idle.covers_iff {h : Heartbeat} (hi : h.Idle) (o : Key → Option Transaction) :
    h.Covers o ↔ ∀ id, o id = none := by
  constructor
  · intro hc id
    rw [← (hc hi.drained).1 id, hi.txnMap, AList.lookup_empty]
  · intro ho _
    refine ⟨fun id => by rw [ho id, hi.txnMap, AList.lookup_empty], fun order h' hs txn => ?_⟩
    rw [(hi.step hs).2, List.drop_length, ho txn.id]
    simp

/-- **When the heartbeats cover the open transactions:** after a run from `Open`, when there are
none. -/
theorem covers_iff_none_open {l : List Act} {h : Heartbeat}
    (hrun : Steps.run Heartbeat.step openHeartbeat l = some h) :
    h.Covers (opened l) ↔ ∀ id, opened l id = none :=
  (openHeartbeat_idle.run hrun).covers_iff (opened l)

/-- A transaction that was added and deleted again, and a tick. -/
theorem covers_iff_none_open_deleted :
    ∃ h, Steps.run Heartbeat.step openHeartbeat
        [.call (.add { id := [1] }), .call (.del [1]), .tick, .beat []] = some h ∧
      h.Covers (opened [.call (.add { id := [1] }), .call (.del [1]), .tick, .beat []]) := by
  refine ⟨_, rfl, (covers_iff_none_open rfl).mpr fun id => ?_⟩
  simp [opened, Act.opens, HeartbeatCall.opens]

/-- A transaction is added, and there is nothing left to consume: the map does not have it. -/
theorem added_dropped :
    ∃ h, Steps.run Heartbeat.step openHeartbeat [.call (.add { id := [1] })] = some h ∧
      h.Drained ∧ opened [.call (.add { id := [1] })] [1] = some { id := [1] } ∧
      h.txnMap.lookup [1] = none := by
  refine ⟨_, rfl, ⟨rfl, rfl, rfl⟩, ?_, rfl⟩
  simp [opened, Act.opens, HeartbeatCall.opens]

end Heartbeat

end Ancestor.Client
