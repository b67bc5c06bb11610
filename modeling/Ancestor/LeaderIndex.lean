import Ancestor.NodeRequest

/-!
The node and the index of the retry loop (`doNodeRequest` of `client/base.go`), against any errors.

The loop has the node that it calls and the index of a replica in two variables. An error can name
a leader that the descriptor does not have: the loop calls the node it was told, and the index goes
to the first replica. When that node answers, the index of the first replica is stored.
-/

namespace Ancestor.Client.LeaderIndex

open Hoare

/-! ### Scripts -/

/-- A descriptor whose leader is one of its replicas. -/
structure Cached where
  rd : RangeDesc
  lead : rd.leaderIndex < rd.desc.replicas.length

inductive NodeError
  | readPriority
  | rpcConnect
  | notLeader (nodeID : NodeID)
  /-- With the descriptor that the cache has after it was cleared. -/
  | rangeNotFound (fresh : Cached)

def NodeError.cause (rangeID : RangeID) : NodeError → Cause
  | .readPriority => .node .readPriority
  | .rpcConnect => .rpcConnect
  | .notLeader nodeID => .node (.notLeader nodeID)
  | .rangeNotFound _ => .node (.rangeNotFound rangeID)

def NodeError.cached (c : Cached) : NodeError → Cached
  | .rangeNotFound fresh => fresh
  | _ => c

/-- The errors to come, after which calls succeed, and the calls made. -/
structure Script where
  cached : Cached
  errs : List NodeError
  log : List (NodeID × RangeDescriptor) := []

def scriptBase : Base Script where
  getRangeDescFromCache _ := fun w => .ok w.cached.rd w
  clearRangeCache := return
  getNodeConn _ := return
  isStop := return false

def scriptCall (id : NodeID) (desc : RangeDescriptor) : CM Script Unit := fun w =>
  match w.errs with
  | [] => .ok () { w with log := w.log ++ [(id, desc)] }
  | e :: errs =>
    .error ⟨e.cause desc.rangeID, true⟩
      { cached := e.cached w.cached, errs := errs, log := w.log ++ [(id, desc)] }

/-! ### Attempts -/

/-- The variables of the loop. -/
structure Attempt where
  rd : RangeDesc
  id : NodeID
  index : ℕ
  lt : index < rd.desc.replicas.length

def Attempt.call (a : Attempt) : NodeID × RangeDescriptor := (a.id, a.rd.desc)

/-- The attempt at a replica. -/
def Attempt.at (rd : RangeDesc) (i : ℕ) (h : i < rd.desc.replicas.length) : Attempt :=
  ⟨rd, rd.desc.replicas[i].nodeID, i, h⟩

def Attempt.turn (a : Attempt) : Attempt :=
  .at a.rd ((a.index + 1) % a.rd.desc.replicas.length)
    (Nat.mod_lt _ (Nat.zero_lt_of_lt a.lt))

lemma setLeaderNodeID_lt {rd : RangeDesc} (h : 0 < rd.desc.replicas.length) (nodeID : NodeID) :
    (rd.setLeaderNodeID nodeID).2 < (rd.setLeaderNodeID nodeID).1.desc.replicas.length := by
  unfold RangeDesc.setLeaderNodeID
  cases hf : rd.desc.replicas.findIdx? fun r => decide (r.nodeID = nodeID) with
  | none => exact h
  | some i => exact (List.findIdx?_eq_some_iff_getElem.mp hf).1

lemma setLeaderNodeID_desc (rd : RangeDesc) (nodeID : NodeID) :
    (rd.setLeaderNodeID nodeID).1.desc = rd.desc := by
  unfold RangeDesc.setLeaderNodeID
  split <;> rfl

def Attempt.next (a : Attempt) : NodeError → Attempt
  | .readPriority => a
  | .rpcConnect => a.turn
  | .notLeader nodeID =>
    if nodeID ≤ 0 then a.turn
    else
      { rd := (a.rd.setLeaderNodeID nodeID).1
        id := nodeID
        index := (a.rd.setLeaderNodeID nodeID).2
        lt := setLeaderNodeID_lt (Nat.zero_lt_of_lt a.lt) nodeID }
  | .rangeNotFound fresh => .at fresh.rd fresh.rd.leaderIndex fresh.lead

def Attempt.after (a : Attempt) (errs : List NodeError) : Attempt := errs.foldl Attempt.next a

/-- The attempts up to the one that succeeds. -/
def Attempt.calls (a : Attempt) : List NodeError → List (NodeID × RangeDescriptor)
  | [] => [a.call]
  | e :: errs => a.call :: (a.next e).calls errs

lemma calls_getElem (a : Attempt) (errs : List NodeError) {t : ℕ} (ht : t ≤ errs.length) :
    (a.calls errs)[t]? = some (a.after (errs.take t)).call := by
  induction errs generalizing a t with
  | nil =>
    obtain rfl : t = 0 := Nat.le_zero.mp ht
    rfl
  | cons e errs ih =>
    cases t with
    | zero => rfl
    | succ t => exact ih (a.next e) (Nat.le_of_succ_le_succ ht)

lemma calls_length (a : Attempt) (errs : List NodeError) :
    (a.calls errs).length = errs.length + 1 := by
  induction errs generalizing a with
  | nil => rfl
  | cons e errs ih => exact congrArg (· + 1) (ih (a.next e))

lemma calls_getLast (a : Attempt) (errs : List NodeError) :
    (a.calls errs).getLast? = some (a.after errs).call := by
  rw [List.getLast?_eq_getElem?, calls_length, Nat.add_sub_cancel, calls_getElem a errs le_rfl,
    List.take_length]

/-! ### The loop follows the attempts -/

lemma nodeAt_ok {W : Type} {rd : RangeDesc} {i : ℕ} (h : i < rd.desc.replicas.length) (w : W) :
    rd.nodeAt i w = .ok (rd.desc.replicas[i].nodeID, i) w := by
  rw [RangeDesc.nodeAt, List.getElem?_eq_getElem h]
  rfl

section Loop

variable (key : Key)

lemma script_conn (id : NodeID) (w : Script) : scriptBase.getNodeConn id w = .ok () w := rfl

lemma script_stop (w : Script) : scriptBase.isStop w = .ok false w := rfl

lemma script_clear (w : Script) : scriptBase.clearRangeCache w = .ok () w := rfl

lemma script_cache (w : Script) :
    scriptBase.getRangeDescFromCache key w = .ok w.cached.rd w := rfl

lemma script_ok (n : ℕ) (a : Attempt) {w : Script} (h : w.errs = []) :
    nodeLoop scriptBase key scriptCall (n + 1) a.rd a.id a.index w =
      .ok (a.rd.setLeaderNodeIdx a.index) { w with log := w.log ++ [a.call] } := by
  have hcall : scriptCall a.id a.rd.desc w = .ok () { w with log := w.log ++ [a.call] } := by
    rw [scriptCall, h]
    rfl
  exact nodeLoop_ok (script_conn a.id w) hcall

/-- An error takes the loop to the next attempt. -/
lemma script_error (n : ℕ) (a : Attempt) {w : Script} {e : NodeError} {errs : List NodeError}
    (h : w.errs = e :: errs) :
    nodeLoop scriptBase key scriptCall (n + 1) a.rd a.id a.index w =
      nodeLoop scriptBase key scriptCall n (a.next e).rd (a.next e).id (a.next e).index
        { cached := e.cached w.cached, errs := errs, log := w.log ++ [a.call] } := by
  have hcall : outcome (scriptCall a.id a.rd.desc) w =
      .ok (.error ⟨e.cause a.rd.desc.rangeID, true⟩)
        { cached := e.cached w.cached, errs := errs, log := w.log ++ [a.call] } := by
    rw [outcome, scriptCall, h]
    rfl
  have hturn := Nat.mod_lt (a.index + 1) (Nat.zero_lt_of_lt a.lt)
  rw [nodeLoop, run_bind_ok (traced_ok (script_conn a.id w)), run_bind_ok hcall]
  simp only
  rw [run_bind_ok (script_stop _)]
  cases e with
  | readPriority => rfl
  | rpcConnect =>
    simp only [NodeError.cause, Bool.false_eq_true, if_false]
    rw [RangeDesc.getNextNodeID, run_bind_ok (nodeAt_ok hturn _)]
    rfl
  | notLeader nodeID =>
    simp only [NodeError.cause, Bool.false_eq_true, if_false, Attempt.next]
    split_ifs
    · rw [RangeDesc.getNextNodeID, run_bind_ok (nodeAt_ok hturn _)]
      rfl
    · rfl
  | rangeNotFound fresh =>
    simp only [NodeError.cause, Bool.false_eq_true, if_false]
    rw [run_bind_ok (script_clear _), run_bind_ok (traced_ok (script_cache key _))]
    exact run_bind_ok (nodeAt_ok fresh.lead _)

/-- With fewer errors than attempts the loop succeeds, and stores the index of the last attempt. -/
lemma nodeLoop_succeeds {n : ℕ} (a : Attempt) {w : Script} (h : w.errs.length < n) :
    ∃ c, nodeLoop scriptBase key scriptCall n a.rd a.id a.index w =
      .ok ((a.after w.errs).rd.setLeaderNodeIdx (a.after w.errs).index)
        { cached := c, errs := [], log := w.log ++ a.calls w.errs } := by
  induction n generalizing a w with
  | zero => exact absurd h (Nat.not_lt_zero _)
  | succ n ih =>
    cases he : w.errs with
    | nil =>
      rw [script_ok key n a he]
      exact ⟨w.cached, by rw [he]; rfl⟩
    | cons e errs =>
      rw [he, List.length_cons, Nat.add_lt_add_iff_right] at h
      obtain ⟨c, hc⟩ := ih (a.next e)
        (w := { cached := e.cached w.cached, errs := errs, log := w.log ++ [a.call] }) h
      refine ⟨c, ((script_error key n a he).trans hc).trans ?_⟩
      rw [List.append_assoc]
      rfl

/-- Otherwise it gives up. -/
lemma nodeLoop_fails {n : ℕ} (a : Attempt) {w : Script} (h : n ≤ w.errs.length) :
    ∃ c, nodeLoop scriptBase key scriptCall n a.rd a.id a.index w =
      .error ⟨.needRetry none, false⟩
        { cached := c, errs := w.errs.drop n, log := w.log ++ (a.calls w.errs).take n } := by
  induction n generalizing a w with
  | zero =>
    refine ⟨w.cached, ?_⟩
    rw [List.drop_zero, List.take_zero, List.append_nil]
    rfl
  | succ n ih =>
    cases he : w.errs with
    | nil =>
      rw [he] at h
      exact absurd h (Nat.not_succ_le_zero n)
    | cons e errs =>
      rw [he, List.length_cons, Nat.add_le_add_iff_right] at h
      obtain ⟨c, hc⟩ := ih (a.next e)
        (w := { cached := e.cached w.cached, errs := errs, log := w.log ++ [a.call] }) h
      refine ⟨c, ((script_error key n a he).trans hc).trans ?_⟩
      rw [List.append_assoc]
      rfl

end Loop

/-- A request for a key whose descriptor is in the cache, against a script. -/
def request (key : Key) (c : Cached) (errs : List NodeError) :
    EStateM.Result Error Script RangeDesc :=
  doNodeRequest scriptBase key scriptCall { cached := c, errs := errs }

def Attempt.first (c : Cached) : Attempt := .at c.rd c.rd.leaderIndex c.lead

lemma request_eq (key : Key) (c : Cached) (errs : List NodeError) :
    request key c errs =
      nodeLoop scriptBase key scriptCall (maxRetries + 1) (Attempt.first c).rd (Attempt.first c).id
        (Attempt.first c).index { cached := c, errs := errs } := by
  rw [request, doNodeRequest, run_bind_ok (traced_ok (script_cache key _))]
  exact run_bind_ok (nodeAt_ok c.lead _)

/-- The calls that a request makes. -/
def callsOf (key : Key) (c : Cached) (errs : List NodeError) : List (NodeID × RangeDescriptor) :=
  match request key c errs with
  | .ok _ w => w.log
  | .error _ w => w.log

section Request

variable (key : Key) (c : Cached) {errs : List NodeError}

lemma request_ok (h : errs.length ≤ maxRetries) :
    ∃ d, request key c errs =
      .ok (((Attempt.first c).after errs).rd.setLeaderNodeIdx ((Attempt.first c).after errs).index)
        { cached := d, errs := [], log := (Attempt.first c).calls errs } := by
  rw [request_eq]
  exact nodeLoop_succeeds key (.first c) (Nat.lt_succ_of_le h)

lemma request_error (h : maxRetries < errs.length) :
    ∃ d, request key c errs = .error ⟨.needRetry none, false⟩
      { cached := d
        errs := errs.drop (maxRetries + 1)
        log := ((Attempt.first c).calls errs).take (maxRetries + 1) } := by
  rw [request_eq]
  exact nodeLoop_fails key (.first c) h

lemma callsOf_eq (errs : List NodeError) :
    callsOf key c errs = ((Attempt.first c).calls errs).take (maxRetries + 1) := by
  rw [callsOf]
  rcases Nat.lt_or_ge maxRetries errs.length with h | h
  · obtain ⟨d, hd⟩ := request_error key c h
    rw [hd]
  · obtain ⟨d, hd⟩ := request_ok key c h
    rw [hd, List.take_of_length_le]
    rw [calls_length]
    exact Nat.succ_le_succ h

end Request

/-! ### Which node answers -/

/-- The descriptor in use after the errors. -/
def current (c : Cached) (errs : List NodeError) : RangeDescriptor :=
  (errs.foldl NodeError.cached c).rd.desc

/-- The last node that was called is one that an error named and the descriptor does not have. -/
def Astray (c : Cached) (errs : List NodeError) : Prop :=
  ∃ l nodeID rest, errs = l ++ .notLeader nodeID :: rest ∧ (∀ e ∈ rest, e = .readPriority) ∧
    0 < nodeID ∧ ∀ r ∈ (current c l).replicas, r.nodeID ≠ nodeID

/-- The node is that of the replica at the index. -/
def Attempt.OnReplica (a : Attempt) : Prop :=
  ∃ r, a.rd.desc.replicas[a.index]? = some r ∧ r.nodeID = a.id

section Answer

variable {c : Cached} {errs : List NodeError}

lemma at_onReplica {rd : RangeDesc} {i : ℕ} (h : i < rd.desc.replicas.length) :
    (Attempt.at rd i h).OnReplica :=
  ⟨rd.desc.replicas[i], List.getElem?_eq_getElem h, rfl⟩

lemma after_snoc (a : Attempt) (errs : List NodeError) (e : NodeError) :
    a.after (errs ++ [e]) = (a.after errs).next e := by
  rw [Attempt.after, List.foldl_append]
  rfl

lemma after_desc (c : Cached) (errs : List NodeError) :
    ((Attempt.first c).after errs).rd.desc = current c errs := by
  induction errs using List.reverseRecOn with
  | nil => rfl
  | append_singleton errs e ih =>
    rw [after_snoc, current, List.foldl_append]
    cases e with
    | readPriority => exact ih
    | rpcConnect => exact ih
    | notLeader nodeID =>
      rw [Attempt.next]
      split_ifs
      · exact ih
      · exact (setLeaderNodeID_desc _ nodeID).trans ih
    | rangeNotFound fresh => rfl

/-- A node that an error names, and the index that the loop gives it. -/
lemma named_onReplica (a : Attempt) {nodeID : NodeID} (h : ¬ nodeID ≤ 0) :
    (a.next (.notLeader nodeID)).OnReplica ↔ ∃ r ∈ a.rd.desc.replicas, r.nodeID = nodeID := by
  simp only [Attempt.next, if_neg h, Attempt.OnReplica, setLeaderNodeID_desc]
  constructor
  · rintro ⟨r, hr, hid⟩
    exact ⟨r, List.mem_of_getElem? hr, hid⟩
  · rintro ⟨r, hr, hid⟩
    unfold RangeDesc.setLeaderNodeID
    cases hf : a.rd.desc.replicas.findIdx? fun r => decide (r.nodeID = nodeID) with
    | none =>
      rw [List.findIdx?_eq_none_iff] at hf
      exact absurd hid (of_decide_eq_false (hf r hr))
    | some i =>
      obtain ⟨hi, heq, -⟩ := List.findIdx?_eq_some_iff_getElem.mp hf
      exact ⟨_, List.getElem?_eq_getElem hi, of_decide_eq_true heq⟩

lemma not_astray_nil : ¬ Astray c [] := by
  rintro ⟨l, nodeID, rest, h, -⟩
  simp at h

lemma astray_snoc {e : NodeError} : Astray c (errs ++ [e]) ↔
    (e = .readPriority ∧ Astray c errs) ∨
      ∃ nodeID, e = .notLeader nodeID ∧ 0 < nodeID ∧
        ∀ r ∈ (current c errs).replicas, r.nodeID ≠ nodeID := by
  constructor
  · rintro ⟨l, nodeID, rest, h, hrest, hpos, hout⟩
    rcases List.eq_nil_or_concat rest with rfl | ⟨init, x, rfl⟩
    · obtain ⟨rfl, he⟩ := List.append_inj' h rfl
      exact .inr ⟨nodeID, List.singleton_inj.mp he, hpos, hout⟩
    · rw [List.concat_eq_append, ← List.cons_append, ← List.append_assoc] at h
      obtain ⟨rfl, he⟩ := List.append_inj' h rfl
      rw [List.singleton_inj.mp he]
      refine .inl ⟨hrest x (by simp), l, nodeID, init, rfl, fun e he => ?_, hpos, hout⟩
      exact hrest e (by simp [he])
  · rintro (⟨rfl, l, nodeID, rest, rfl, hrest, hpos, hout⟩ | ⟨nodeID, rfl, hpos, hout⟩)
    · refine ⟨l, nodeID, rest ++ [.readPriority], by simp, fun e he => ?_, hpos, hout⟩
      rcases List.mem_append.mp he with he | he
      · exact hrest e he
      · exact List.mem_singleton.mp he
    · exact ⟨errs, nodeID, [], rfl, by simp, hpos, hout⟩

/-- The index is that of the node, unless the loop was led astray. -/
lemma onReplica_iff (c : Cached) (errs : List NodeError) :
    ((Attempt.first c).after errs).OnReplica ↔ ¬ Astray c errs := by
  induction errs using List.reverseRecOn with
  | nil => exact iff_of_true (at_onReplica c.lead) not_astray_nil
  | append_singleton errs e ih =>
    rw [after_snoc, astray_snoc]
    cases e with
    | readPriority => simpa [Attempt.next] using ih
    | rpcConnect => exact iff_of_true (at_onReplica _) (by simp)
    | rangeNotFound fresh => exact iff_of_true (at_onReplica _) (by simp)
    | notLeader nodeID =>
      by_cases h : nodeID ≤ 0
      · rw [Attempt.next, if_pos h]
        exact iff_of_true (at_onReplica _) (by simp [Int32.not_lt.mpr h])
      · rw [named_onReplica _ h, after_desc]
        simp [Int32.not_le.mp h]

end Answer

/-! ### Turns -/

lemma turn_index (a : Attempt) :
    a.turn.index = (a.index + 1) % a.rd.desc.replicas.length := rfl

lemma turns_spec (a : Attempt) (k : ℕ) :
    (Attempt.turn^[k] a).rd = a.rd ∧
      (Attempt.turn^[k] a).index = (a.index + k) % a.rd.desc.replicas.length ∧
      (a.OnReplica ∨ 0 < k → (Attempt.turn^[k] a).OnReplica) := by
  induction k with
  | zero => exact ⟨rfl, (Nat.mod_eq_of_lt a.lt).symm, fun h => h.resolve_right (lt_irrefl 0)⟩
  | succ k ih =>
    obtain ⟨hrd, hindex, -⟩ := ih
    rw [Function.iterate_succ_apply']
    refine ⟨hrd, ?_, fun _ => at_onReplica _⟩
    rw [turn_index, hrd, hindex, Nat.mod_add_mod, Nat.add_assoc]

/-- In turns, every index comes up between two attempts at the same one. -/
lemma exists_turn {n i k k' j : ℕ} (hlt : k < k') (heq : (i + k) % n = (i + k') % n) (hj : j < n) :
    ∃ t, k ≤ t ∧ t < k' ∧ (i + t) % n = j := by
  have hn : 0 < n := Nat.zero_lt_of_lt hj
  have hdvd : n ∣ k' - k := by
    have := (Nat.modEq_iff_dvd' (Nat.add_le_add_left hlt.le i)).mp heq
    rwa [Nat.add_sub_add_left] at this
  have hle : n ≤ k' - k := Nat.le_of_dvd (Nat.sub_pos_of_lt hlt) hdvd
  have hmod : (i + k) % n < n := Nat.mod_lt _ hn
  rcases Nat.lt_or_ge j ((i + k) % n) with h | h
  · refine ⟨k + (j + n - (i + k) % n), by omega, by omega, ?_⟩
    rw [← Nat.add_assoc, Nat.add_mod, Nat.mod_eq_of_lt (a := j + n - (i + k) % n) (by omega),
      show (i + k) % n + (j + n - (i + k) % n) = j + n by omega, Nat.add_mod_right,
      Nat.mod_eq_of_lt hj]
  · refine ⟨k + (j - (i + k) % n), by omega, by omega, ?_⟩
    rw [← Nat.add_assoc, Nat.add_mod, Nat.mod_eq_of_lt (a := j - (i + k) % n) (by omega),
      show (i + k) % n + (j - (i + k) % n) = j by omega, Nat.mod_eq_of_lt hj]

section Turns

variable {key : Key} {c : Cached} {errs : List NodeError}

/-- Call number `t` of the request is at replica `j`. -/
def Tries (key : Key) (c : Cached) (errs : List NodeError) (t j : ℕ) : Prop :=
  ((Attempt.first c).after (errs.take t)).index = j ∧
    ∃ r, (current c (errs.take t)).replicas[j]? = some r ∧
      (callsOf key c errs)[t]? = some (r.nodeID, current c (errs.take t))

lemma tries_iff {t j : ℕ} : Tries key c errs t j ↔
    (t ≤ maxRetries ∧ t ≤ errs.length) ∧
      ((Attempt.first c).after (errs.take t)).OnReplica ∧
      ((Attempt.first c).after (errs.take t)).index = j := by
  have hcall : ∀ x, (callsOf key c errs)[t]? = some x ↔
      (t ≤ maxRetries ∧ t ≤ errs.length) ∧
        ((Attempt.first c).after (errs.take t)).call = x := by
    intro x
    rw [callsOf_eq]
    by_cases ht : t ≤ maxRetries ∧ t ≤ errs.length
    · rw [List.getElem?_take_of_lt (Nat.lt_succ_of_le ht.1), calls_getElem _ _ ht.2]
      simp [ht]
    · have hnone : (((Attempt.first c).calls errs).take (maxRetries + 1))[t]? = none := by
        rw [List.getElem?_eq_none_iff, List.length_take, calls_length]
        omega
      simp [hnone, ht]
  simp only [Tries, hcall, Attempt.call, Attempt.OnReplica, after_desc, Prod.mk.injEq, and_true]
  constructor
  · rintro ⟨rfl, r, hr, ht, hid⟩
    exact ⟨ht, ⟨r, hr, hid.symm⟩, rfl⟩
  · rintro ⟨ht, ⟨r, hr, hid⟩, rfl⟩
    exact ⟨rfl, r, hr, ht, hid.symm⟩

/-- Errors of the connection make turns. -/
lemma after_turns {s m : ℕ} (h : ∀ k < m, errs[s + k]? = some .rpcConnect) (a : Attempt) :
    ∀ k ≤ m, a.after (errs.take (s + k)) = Attempt.turn^[k] (a.after (errs.take s)) := by
  intro k hk
  induction k with
  | zero => rfl
  | succ k ih =>
    rw [← Nat.add_assoc, List.take_add_one, h k hk, Function.iterate_succ_apply', ← ih (by omega)]
    exact after_snoc a _ _

/-- **In step.** The index that is stored is that of the replica whose node answered, and over
errors of the connection every replica is tried before one is tried again. -/
structure InStep (key : Key) (c : Cached) (errs : List NodeError) : Prop where
  leader : ∀ rd w, request key c errs = .ok rd w →
    ∃ r, rd.desc.replicas[rd.leaderIndex]? = some r ∧ w.log.getLast?.map Prod.fst = some r.nodeID
  turns : ∀ s m, (∀ k < m, errs[s + k]? = some .rpcConnect) →
    ∀ k k' j, k < k' → k' ≤ m → Tries key c errs (s + k) j → Tries key c errs (s + k') j →
      ∀ i < (current c (errs.take s)).replicas.length,
        ∃ t, k ≤ t ∧ t < k' ∧ Tries key c errs (s + t) i

lemma turns_hold (key : Key) (c : Cached) (errs : List NodeError) (s m : ℕ)
    (h : ∀ k < m, errs[s + k]? = some .rpcConnect) (k k' j : ℕ) (hlt : k < k') (hk' : k' ≤ m)
    (hj : Tries key c errs (s + k) j) (hj' : Tries key c errs (s + k') j) (i : ℕ)
    (hi : i < (current c (errs.take s)).replicas.length) :
    ∃ t, k ≤ t ∧ t < k' ∧ Tries key c errs (s + t) i := by
  have hturn := after_turns h (.first c)
  simp only [tries_iff] at hj hj' ⊢
  obtain ⟨-, hon, hjk⟩ := hj
  obtain ⟨hbound, -, hjk'⟩ := hj'
  have hspec := turns_spec ((Attempt.first c).after (errs.take s))
  rw [← after_desc] at hi
  rw [hturn k (by omega), (hspec k).2.1] at hjk
  rw [hturn k' hk', (hspec k').2.1] at hjk'
  obtain ⟨t, hkt, htk, ht⟩ := exists_turn hlt (hjk.trans hjk'.symm) hi
  refine ⟨t, hkt, htk, by omega, ?_, ?_⟩
  · -- at the first of the attempts the loop may be elsewhere, but then it is none of these
    rcases Nat.eq_or_lt_of_le hkt with rfl | hlt'
    · exact hon
    · rw [hturn t (by omega)]
      exact (hspec t).2.2 (.inr (by omega))
  · rw [hturn t (by omega), (hspec t).2.1, ht]

/-- **When node and index stay in step:** the node that answers is not one that an error named and
the descriptor does not have. -/
theorem inStep_iff (key : Key) (c : Cached) (errs : List NodeError) :
    InStep key c errs ↔ (errs.length ≤ maxRetries → ¬ Astray c errs) := by
  rw [← onReplica_iff]
  constructor
  · intro h hlen
    obtain ⟨d, hd⟩ := request_ok key c hlen
    obtain ⟨r, hr, hlast⟩ := h.leader _ _ hd
    rw [calls_getLast, Option.map_some, Option.some.injEq] at hlast
    exact ⟨r, hr, hlast.symm⟩
  · intro h
    refine ⟨fun rd w hrun => ?_, turns_hold key c errs⟩
    rcases Nat.lt_or_ge maxRetries errs.length with hlen | hlen
    · obtain ⟨d, hd⟩ := request_error key c hlen
      rw [hd] at hrun
      cases hrun
    · obtain ⟨d, hd⟩ := request_ok key c hlen
      rw [hd] at hrun
      cases hrun
      obtain ⟨r, hr, hid⟩ := h hlen
      refine ⟨r, hr, ?_⟩
      rw [calls_getLast, Option.map_some, hid]
      rfl

/-- Replicas on nodes 1 and 2, the first one leading. -/
def twoReplicas : Cached where
  rd :=
    { desc :=
        { rangeID := 1
          startKey := [1]
          endKey := [2]
          replicas := [{ nodeID := 1 }, { nodeID := 2 }] } }
  lead := by decide

/-- Node 2 says that node 9 leads, and node 9 answers: the stored index is that of node 1. -/
theorem foreign_leader_answers :
    (∃ rd w, request [1] twoReplicas [.rpcConnect, .notLeader 9] = .ok rd w ∧
      w.log.map Prod.fst = [1, 2, 9] ∧ rd.leaderIndex = 0 ∧
      rd.desc.replicas.map ReplicaDescriptor.nodeID = [1, 2]) ∧
      ¬InStep [1] twoReplicas [.rpcConnect, .notLeader 9] := by
  refine ⟨⟨_, _, rfl, rfl, rfl, rfl⟩, fun h => ?_⟩
  obtain ⟨r, hr, hlast⟩ := h.leader _ _ rfl
  cases hr
  exact absurd hlast (by decide)

end Turns

end Ancestor.Client.LeaderIndex
