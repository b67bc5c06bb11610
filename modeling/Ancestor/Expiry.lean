import Ancestor.OracleCalls
import Ancestor.RecordUpdate

/-!
The expiry of abandoned transactions (`txnExpiredTime` of `storage/replica_command.go`, against
the timestamps of `pd/ts.go`).

A client that is alive sends heartbeats, and a push aborts the transaction of one that has not
for `txnExpiredTime`. The constant is a Go duration, five seconds in nanoseconds; the wall time of
a timestamp is in milliseconds. The difference of two wall times has to reach five thousand
million milliseconds, 58 days, before a transaction counts as abandoned.
-/

namespace Ancestor

open M Hoare Oracle

/-! ### When a push aborts -/

/-- The push leaves the record of `id` aborted. -/
def PushAborts (id : Key) (latest : Timestamp) (pushType : PushTxnType) (pusher : Transaction)
    (s : St) : Prop :=
  ∃ p, recAt (stateAfter (processPushTransaction id latest pushType pusher) s).eng id = some p ∧
    p.status = .aborted

section Push

variable {s : St} {r : Transaction} (latest : Timestamp) (pushType : PushTxnType)
  (pusher : Transaction)

/-- The record after a push is the one it has asked for. -/
lemma recAt_push (hrec : mvccGetTxn s.eng r.id = .ok (some r)) :
    recAt (stateAfter (processPushTransaction r.id latest pushType pusher) s).eng r.id =
      some (((pushRequest r latest pushType pusher).map Prod.fst).getD r) := by
  rw [processPushTransaction_state, hrec]
  simp only
  cases hreq : pushRequest r latest pushType pusher with
  | none =>
    have hlook : Looked s r.id .heartbeat (some r) := hrec
    exact recAt_of_looked hlook (by decide)
  | some x =>
    obtain ⟨req, changeType⟩ := x
    obtain ⟨s', hs', he⟩ := mvccPutTxn_pushRequest hrec hreq
    simp only [stateAfter_ok hs', he, recAt_put_txn]
    rfl

/-- **A push aborts a pending record** that counts as abandoned, or whose priority is not above
its own when it asks for that. -/
theorem pushAborts_iff (hrec : mvccGetTxn s.eng r.id = .ok (some r)) (hp : r.status = .pending) :
    PushAborts r.id latest pushType pusher s ↔
      ¬ (pushType = .pushTimestamp ∧ pusher.timestamp < r.timestamp) ∧
        (latest.wallTime - r.lastHeartbeat > txnExpiredTime ∨
          pushType = .pushAbort ∧ ¬ pusher.priority < r.priority) := by
  have hiff : PushAborts r.id latest pushType pusher s ↔
      (((pushRequest r latest pushType pusher).map Prod.fst).getD r).status = .aborted := by
    simp [PushAborts, recAt_push latest pushType pusher hrec]
  rw [hiff]
  unfold pushRequest
  rw [if_neg (not_not.mpr hp), ← Timestamp.large_iff]
  by_cases hpast : pushType = .pushTimestamp ∧ r.timestamp.large pusher.timestamp
  · simp [hpast.1, hpast.2, hp]
  rw [if_neg hpast]
  by_cases hexp : latest.wallTime - r.lastHeartbeat > txnExpiredTime
  · rw [if_pos hexp]
    exact iff_of_true rfl ⟨hpast, .inl hexp⟩
  rw [if_neg hexp]
  by_cases hprio : pusher.priority < r.priority
  · simp [hprio, hexp, hp]
  rw [if_neg hprio]
  cases pushType with
  | pushTimestamp => cases pusher.timestamp.next <;> simp [hexp, hp]
  | pushAbort => simp [hprio]
  | pushTouch => simp [hexp, hp]

end Push

/-! ### Times of the clock and wall times -/

/-- A call of `getTimestamp` returns `ts` while the clock shows `now`. -/
def IssuedAt (T now : Int64) (ts : Timestamp) : Prop :=
  ∃ l σ c σ' s cur n, Steps.run (State.step T) init l = some σ ∧ σ.cluster.now = now ∧
    σ.stepCall (.add c) = some σ' ∧ σ'.calls[c]? = some ⟨s, .done cur ts n⟩

lemma wf_run {T : Int64} {l : List Action} {σ : State}
    (hrun : Steps.run (State.step T) init l = some σ) : Wf σ.cluster := by
  refine Steps.invariant (P := fun σ : State => Wf σ.cluster) (C := fun _ _ => True)
    (fun σ a σ' h _ hs => ?_) wf_init (Steps.along_of_forall (fun _ _ => trivial) _ _) hrun
  cases a with
  | master a =>
    obtain ⟨κ, hκ, rfl⟩ := Option.map_eq_some_iff.mp hs
    exact h.step (step_effect hκ)
  | call a => cases stepCall_effect hs <;> exact h

lemma IssuedAt.nonneg {T now : Int64} {ts : Timestamp} (h : IssuedAt T now ts) :
    0 ≤ ts.wallTime.toInt := by
  obtain ⟨l, σ, c, σ', s, cur, n, hrun, -, hadd, hdone⟩ := h
  cases stepCall_effect hadd with
  | @add c s' i cur' obj state hc hobj hstate =>
    have hwf : Wf σ.cluster := wf_run hrun
    have hlt : c < σ.calls.length := (List.getElem?_eq_some_iff.mp hc).1
    have hset : (State.setCall
        { σ with logical := Function.update σ.logical cur' (σ.logical cur' + 1) } c
        ⟨s', state⟩).calls[c]? = some ⟨s', state⟩ := List.getElem?_set_self hlt
    rw [hset] at hdone
    cases hdone
    rcases hstate with h | h
    · cases h
    · cases h
      have hpos := (hwf.object obj (List.mem_of_getElem? hobj)).1
      show 0 ≤ (millis obj.wallTime).toInt
      rw [millis_of_nonneg hpos.le]
      omega

/-- The comparison of the push, on wall times that the oracle has issued. -/
lemma expired_iff {T a b : Int64} {ta tb : Timestamp} (hta : IssuedAt T a ta)
    (htb : IssuedAt T b tb) :
    tb.wallTime - ta.wallTime > txnExpiredTime ↔
      txnExpiredTime.toInt < tb.wallTime.toInt - ta.wallTime.toInt := by
  have ha := hta.nonneg
  have hb := htb.nonneg
  have hlt := Int64.toInt_lt tb.wallTime
  have hlt' := Int64.toInt_lt ta.wallTime
  show txnExpiredTime < _ ↔ _
  rw [Int64.lt_iff_toInt_lt, Int64.toInt_sub, Int.bmod_eq_of_le (by omega) (by omega)]

/-- **When abandoned transactions are aborted, and others are not.** The heartbeat of a pending
record and the push come with timestamps issued when the clock showed `a` and `b`. Five seconds and
two milliseconds between the two have the transaction aborted exactly when the wall times differ by
more than `txnExpiredTime` milliseconds, or the pusher may abort it anyway; less than five seconds
keep it from a pusher of lower priority exactly when the wall times do not. -/
theorem abandoned_aborted_iff {T a b : Int64} {ta tb : Timestamp} {s : St} {r : Transaction}
    (hta : IssuedAt T a ta) (htb : IssuedAt T b tb) (hrec : mvccGetTxn s.eng r.id = .ok (some r))
    (hp : r.status = .pending) (hbeat : r.lastHeartbeat = ta.wallTime) (pushType : PushTxnType)
    (pusher : Transaction) :
    ((txnExpiredTime.toInt + 2000000 ≤ b.toInt - a.toInt →
        (pushType = .pushTimestamp → r.timestamp ≤ pusher.timestamp) →
        PushAborts r.id tb pushType pusher s) ∧
      (b.toInt - a.toInt < txnExpiredTime.toInt - 2000000 → pusher.priority < r.priority →
        ¬ PushAborts r.id tb pushType pusher s)) ↔
    ((txnExpiredTime.toInt + 2000000 ≤ b.toInt - a.toInt →
        (pushType = .pushTimestamp → r.timestamp ≤ pusher.timestamp) →
        txnExpiredTime.toInt < tb.wallTime.toInt - ta.wallTime.toInt ∨
          pushType = .pushAbort ∧ r.priority ≤ pusher.priority) ∧
      (b.toInt - a.toInt < txnExpiredTime.toInt - 2000000 → pusher.priority < r.priority →
        (pushType = .pushTimestamp → r.timestamp ≤ pusher.timestamp) →
        tb.wallTime.toInt - ta.wallTime.toInt ≤ txnExpiredTime.toInt)) := by
  have hpast : ¬ (pushType = .pushTimestamp ∧ pusher.timestamp < r.timestamp) ↔
      (pushType = .pushTimestamp → r.timestamp ≤ pusher.timestamp) := by
    rw [not_and, not_lt]
  have hiff := pushAborts_iff tb pushType pusher hrec hp
  rw [hpast, hbeat, expired_iff hta htb, Int32.not_lt] at hiff
  rw [hiff]
  refine and_congr ?_ ?_
  · exact imp_congr_right fun _ => imp_congr_right fun hts => and_iff_right hts
  · refine imp_congr_right fun _ => imp_congr_right fun hprio => ?_
    have hnot : ¬ r.priority ≤ pusher.priority := Int32.not_le.mpr hprio
    rw [not_and, not_or, not_lt]
    exact imp_congr_right fun _ => and_iff_left fun h => hnot h.2

/-- A timestamp that a call returns right after the actions of `l`. -/
lemma issuedAt_of_run {T now : Int64} {ts : Timestamp} (l : List Action) (c : ℕ)
    (s : ServerID) (cur n : ℕ)
    (h : ((Steps.run (State.step T) init l).bind fun σ => (σ.stepCall (.add c)).map fun σ' =>
      (σ.cluster.now, σ'.calls[c]?)) = some (now, some ⟨s, .done cur ts n⟩)) :
    IssuedAt T now ts := by
  obtain ⟨σ, hrun, h⟩ := Option.bind_eq_some_iff.mp h
  obtain ⟨σ', hadd, h⟩ := Option.map_eq_some_iff.mp h
  rw [Prod.mk.injEq] at h
  exact ⟨l, σ, c, σ', s, cur, n, hrun, h.1, hadd, h.2⟩

/-- The first master is elected, and a call has loaded its object. -/
def firstCall : List Action :=
  [.master (.tick 1700000000000000000), .master (.campaign 0), .master (.loadTimestampFromDB 0),
    .master (.loadTimestamp 0), .master (.saveTimestampToDB 0), .master (.store 0),
    .call (.start 0), .call (.load 0)]

/-- Later, at the reading `now`, the object is renewed and a second call has loaded it. -/
def secondCall (now : Int64) : List Action :=
  firstCall ++ [.master (.tick now), .master (.saveTimestamp 0), .master (.saveTimestampToDB 0),
    .master (.store 0), .call (.start 0), .call (.load 1)]

lemma issuedAt_first : IssuedAt 2000 1700000000000000000 ⟨1700000000000, 1⟩ :=
  issuedAt_of_run firstCall 0 0 0 1 (by decide +kernel)

/-- A pending record of a client that was last heard of at the first call. -/
def silentTxn : Transaction :=
  { id := [1, 65], priority := 1, timestamp := ⟨1700000000000, 1⟩, lastHeartbeat := 1700000000000 }

/-- **Six seconds without a heartbeat do not abort a transaction**: a push at that time is turned
down because of its priority. -/
theorem abandoned_kept :
    IssuedAt 2000 1700000000000000000 ⟨1700000000000, 1⟩ ∧
      IssuedAt 2000 1700000006000000000 ⟨1700000006000, 1⟩ ∧
      txnExpiredTime.toInt + 2000000 ≤
        (1700000006000000000 : Int64).toInt - (1700000000000000000 : Int64).toInt ∧
      silentTxn.lastHeartbeat = 1700000000000 ∧
      processPushTransaction silentTxn.id ⟨1700000006000, 1⟩ .pushAbort
          { id := [1, 66], timestamp := ⟨1700000006000, 1⟩ } (holding silentTxn) =
        .error (.transactionAborted { id := [1, 66], timestamp := ⟨1700000006000, 1⟩ })
          (holding silentTxn) ∧
      ¬ PushAborts silentTxn.id ⟨1700000006000, 1⟩ .pushAbort
        { id := [1, 66], timestamp := ⟨1700000006000, 1⟩ } (holding silentTxn) := by
  have hpush : processPushTransaction silentTxn.id ⟨1700000006000, 1⟩ .pushAbort
      { id := [1, 66], timestamp := ⟨1700000006000, 1⟩ } (holding silentTxn) =
        .error (.transactionAborted { id := [1, 66], timestamp := ⟨1700000006000, 1⟩ })
          (holding silentTxn) := rfl
  have hlater : IssuedAt 2000 1700000006000000000 ⟨1700000006000, 1⟩ :=
    issuedAt_of_run (secondCall 1700000006000000000) 1 0 1 2 (by decide +kernel)
  refine ⟨issuedAt_first, hlater, by decide, rfl, hpush, ?_⟩
  rintro ⟨p, hrec, hst⟩
  rw [stateAfter_error hpush] at hrec
  cases hrec
  cases hst

/-- After seventy days it is aborted. -/
theorem abandoned_aborted_days :
    IssuedAt 2000 1706048000000000000 ⟨1706048000000, 1⟩ ∧
      PushAborts silentTxn.id ⟨1706048000000, 1⟩ .pushAbort
        { id := [1, 66], timestamp := ⟨1706048000000, 1⟩ } (holding silentTxn) := by
  have hlate : IssuedAt 2000 1706048000000000000 ⟨1706048000000, 1⟩ :=
    issuedAt_of_run (secondCall 1706048000000000000) 1 0 1 2 (by decide +kernel)
  refine ⟨hlate, ((abandoned_aborted_iff issuedAt_first hlate rfl rfl rfl .pushAbort
    { id := [1, 66], timestamp := ⟨1706048000000, 1⟩ }).mpr ⟨fun _ _ => .inl ?_, fun h => ?_⟩).1
      ?_ ?_⟩
  · decide
  · exact absurd h (by decide)
  · decide
  · simp

end Ancestor
