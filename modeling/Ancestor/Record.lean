import Ancestor.Lib.Steps
import Ancestor.Effect

/-!
The transaction record as a state machine.

Every request on a record goes through `MVCCPutTxn`, which turns down a record that is
decided already; a begin alone does not look for one.
-/

namespace Ancestor

open M Hoare

/-! ### The next record -/

section Next

variable {stored req r : Transaction} {changeType : TxnChangeType} {o : Option Transaction}

/-- The record the request goes on with, the stored one or its own, is turned down when it is
decided. -/
lemma nextTxn_refused
    (h : (o.getD { req with lastHeartbeat := req.timestamp.wallTime }).status ≠ .pending) :
    ∃ e, nextTxn o req changeType = .error e := by
  cases hst : (o.getD { req with lastHeartbeat := req.timestamp.wallTime }).status with
  | pending => exact absurd hst h
  | committed => exact ⟨_, if_pos hst⟩
  | aborted =>
    have hc :
        (o.getD { req with lastHeartbeat := req.timestamp.wallTime }).status ≠ .committed := by
      rw [hst]
      exact nofun
    exact ⟨_, (if_neg hc).trans (if_pos hst)⟩

lemma nextTxn_decided (req : Transaction) (changeType : TxnChangeType)
    (h : stored.status ≠ .pending) :
    ∃ e, nextTxn (some stored) req changeType = .error e := nextTxn_refused h

lemma nextTxn_begin (h : req.status = .pending) :
    nextTxn none req .beginTxn =
      .ok (some { req with lastHeartbeat := req.timestamp.wallTime }) := by
  simp [nextTxn, h, Timestamp.less_iff]

lemma nextTxn_begin_decided (h : req.status ≠ .pending) :
    ∃ e, nextTxn none req .beginTxn = .error e := nextTxn_refused h

/-- The record that is gone on with, after the change. -/
def changedTxn (l req : Transaction) (changeType : TxnChangeType) : Transaction :=
  { l with
    lastHeartbeat :=
      if changeType = .heartbeat ∧ req.lastHeartbeat > l.lastHeartbeat then req.lastHeartbeat
      else l.lastHeartbeat
    timestamp := max l.timestamp req.timestamp
    status :=
      if changeType = .pushAbort ∨ changeType = .endTxn then req.status else l.status }

/-- **A record that is stored** comes from a pending one, by the changes the request asks for. -/
lemma nextTxn_some (h : nextTxn o req changeType = .ok (some r)) :
    (o.getD { req with lastHeartbeat := req.timestamp.wallTime }).status = .pending ∧
      r = changedTxn (o.getD { req with lastHeartbeat := req.timestamp.wallTime }) req
        changeType := by
  have hpend : ∀ st : TransactionStatus, st ≠ .committed → st ≠ .aborted → st = .pending := by
    rintro (_ | _ | _) <;> simp
  unfold nextTxn at h
  extract_lets l n at h
  split at h
  · cases h
  next hc =>
  split at h
  · cases h
  next ha =>
  refine ⟨hpend _ hc ha, ?_⟩
  split at h
  · cases h
  -- the three changes in turn
  split at h
  next l₁ n₁ h₁ =>
  split at h
  next l₂ n₂ h₂ =>
  split at h
  next l₃ n₃ h₃ =>
  have hl₁ : l₁ = { l with lastHeartbeat := (changedTxn l req changeType).lastHeartbeat } := by
    split at h₁
    · next hb =>
      cases h₁
      rw [changedTxn, if_pos hb]
    · next hb =>
      cases h₁
      rw [changedTxn, if_neg hb]
  have hl₂ : l₂ = { l₁ with timestamp := (changedTxn l req changeType).timestamp } := by
    simp only [changedTxn]
    split at h₂
    · next hlt =>
      cases h₂
      rw [hl₁, Timestamp.less_iff] at hlt
      rw [max_eq_right hlt.le]
    · next hlt =>
      cases h₂
      rw [hl₁, Timestamp.less_iff] at hlt
      rw [max_eq_left (not_lt.mp hlt), hl₁]
  have hl₃ : l₃ = changedTxn l req changeType := by
    split at h₃
    · next hs =>
      cases h₃
      rw [hl₂, hl₁, changedTxn, if_pos hs]
    · next hs =>
      cases h₃
      rw [hl₂, hl₁, changedTxn, if_neg hs]
  split at h
  · cases h
    exact hl₃
  · cases h

/-- The record that is stored was pending, and takes at most the status of the request. -/
lemma nextTxn_status (h : nextTxn o req changeType = .ok (some r)) :
    r.status = .pending ∨ r.status = req.status := by
  obtain ⟨hp, rfl⟩ := nextTxn_some h
  simp only [changedTxn]
  split
  · exact Or.inr rfl
  · exact Or.inl hp

/-- **An end decides the record** and keeps the larger of the two timestamps. -/
theorem nextTxn_end (h : stored.status = .pending) :
    nextTxn (some stored) req .endTxn = .ok (some
      { stored with timestamp := max stored.timestamp req.timestamp, status := req.status }) := by
  by_cases hlt : stored.timestamp < req.timestamp
  · simp [nextTxn, h, hlt, max_eq_right hlt.le]
  · simp [nextTxn, h, hlt, max_eq_left (not_lt.mp hlt)]

lemma nextTxn_pushAbort (h : stored.status = .pending) :
    nextTxn (some stored) { stored with status := .aborted } .pushAbort =
      .ok (some { stored with status := .aborted }) := by
  simp [nextTxn, h, Timestamp.less_iff]

lemma nextTxn_pushTimestamp (h : stored.status = .pending) {t : Timestamp}
    (ht : stored.timestamp < t) :
    nextTxn (some stored) { stored with timestamp := t } .pushTimestamp =
      .ok (some { stored with timestamp := t }) := by
  simp [nextTxn, h, ht, ht.le]

/-- A heartbeat that carries no later timestamp moves the heartbeat only. -/
lemma nextTxn_heartbeat (req : Transaction) (h : stored.status = .pending)
    (ht : req.timestamp ≤ stored.timestamp) :
    nextTxn (some stored) req .heartbeat = .ok none ∨
      nextTxn (some stored) req .heartbeat =
        .ok (some { stored with lastHeartbeat := req.lastHeartbeat }) := by
  by_cases hb : stored.lastHeartbeat < req.lastHeartbeat
  · right; simp [nextTxn, h, hb, not_lt.mpr ht]
  · left; simp [nextTxn, h, hb, not_lt.mpr ht]

end Next

/-! ### Storing it -/

section Put

variable {s : St} {req : Transaction} {changeType : TxnChangeType} {stored : Option Transaction}

/-- What `MVCCPutTxn` finds before it goes on: for a begin it does not look. -/
def Looked (s : St) (id : Key) (changeType : TxnChangeType) (stored : Option Transaction) : Prop :=
  if changeType = .beginTxn then stored = none else mvccGetTxn s.eng id = .ok stored

lemma looked_of_recAt {id : Key} {r : Transaction} (hid : id ≠ []) (h : recAt s.eng id = some r)
    (hct : changeType ≠ .beginTxn) : Looked s id changeType (some r) := by
  rw [Looked, if_neg hct, mvccGetTxn, if_neg (by simpa using hid)]
  unfold recAt at h
  split at h
  · rename_i t ht
    cases h
    rw [ht]
  · cases h

/-- The record that is looked up is the one stored. -/
lemma recAt_of_looked {id : Key}
    (h : Looked s id changeType stored) (hct : changeType ≠ .beginTxn) :
    recAt s.eng id = stored := by
  rw [Looked, if_neg hct, mvccGetTxn] at h
  split_ifs at h
  unfold recAt
  split at h <;> simp_all

/-- **`MVCCPutTxn` stores the next record**, or leaves the state as it was. -/
theorem mvccPutTxn_run (req : Transaction) (changeType : TxnChangeType) (stats : Bool)
    (h : Looked s req.id changeType stored) :
    match nextTxn stored req changeType with
    | .error e => mvccPutTxn req changeType stats s = .error e s
    | .ok none => mvccPutTxn req changeType stats s = .ok () s
    | .ok (some r) => ∃ s', mvccPutTxn req changeType stats s = .ok () s' ∧
        s'.eng = s.eng.put (newMVCCKey req.id) (.txn r) := by
  have hstored : M.read (fun eng =>
      if changeType ≠ .beginTxn then mvccGetTxn eng req.id else .ok none) s = .ok stored s := by
    refine read_ok ?_
    by_cases hct : changeType = .beginTxn
    · rw [Looked, if_pos hct] at h
      rw [if_neg (not_not.mpr hct), h]
    · rw [Looked, if_neg hct] at h
      rw [if_pos hct, h]
  simp only [mvccPutTxn]
  rw [run_bind_ok hstored]
  cases hn : nextTxn stored req changeType with
  | error e => rfl
  | ok o =>
    cases o with
    | none => rfl
    | some r =>
      cases stats with
      | false => exact ⟨_, rfl, rfl⟩
      | true => exact ⟨_, rfl, rfl⟩

/-- A lookup that fails ends the request. -/
lemma mvccPutTxn_lookup_error (req : Transaction) (stats : Bool)
    (hct : changeType ≠ .beginTxn) {e : Err}
    (h : mvccGetTxn s.eng req.id = .error e) :
    mvccPutTxn req changeType stats s = .error e s := by
  simp only [mvccPutTxn]
  exact run_bind_error (read_error (by rw [if_pos hct, h]))

lemma recAt_put_txn (eng : Engine) (id id' : Key) (r : Transaction) :
    recAt (eng.put (newMVCCKey id) (.txn r)) id' = if id' = id then some r else recAt eng id' := by
  by_cases h : id' = id <;> simp [recAt, newMVCCKey_inj, h]

end Put

/-! ### Pushes and ends of a stored record -/

/-- The push of a pending record that has an effect. -/
inductive Pushed (r : Transaction) : Transaction → Prop
  | aborted : Pushed r { r with status := .aborted }
  | moved (t : Timestamp) (hlt : r.timestamp < t) (hnn : t.Nonneg) :
    Pushed r { r with timestamp := t }

section Stored

variable {s s' : St} {id : Key} {r r' : Transaction}

/-- A request on a pending record that turns it into `r'`. -/
lemma mvccPutTxn_stored (req : Transaction) {changeType : TxnChangeType} (stats : Bool)
    (hid : req.id ≠ []) (hct : changeType ≠ .beginTxn) (hr : recAt s.eng req.id = some r)
    (hn : nextTxn (some r) req changeType = .ok (some r')) :
    ∃ s', mvccPutTxn req changeType stats s = .ok () s' ∧
      s'.eng = s.eng.put (newMVCCKey req.id) (.txn r') := by
  have hrun := mvccPutTxn_run req changeType stats (looked_of_recAt hid hr hct)
  rwa [hn] at hrun

/-- The change a push asks for on the record it finds, if it asks for one. -/
def pushRequest (pushee : Transaction) (latest : Timestamp) (pushType : PushTxnType)
    (pusher : Transaction) : Option (Transaction × TxnChangeType) :=
  if pushee.status ≠ .pending then none
  else if pushType = .pushTimestamp ∧ pushee.timestamp.large pusher.timestamp then none
  else if latest.wallTime - pushee.lastHeartbeat > txnExpiredTime then
    some ({ pushee with status := .aborted }, .pushAbort)
  else if pusher.priority < pushee.priority then none
  else
    match pushType with
    | .pushTimestamp =>
      pusher.timestamp.next.map fun timestamp => ({ pushee with timestamp }, .pushTimestamp)
    | .pushAbort => some ({ pushee with status := .aborted }, .pushAbort)
    | .pushTouch => none

variable {p pusher req : Transaction} {latest : Timestamp} {pushType : PushTxnType}
  {changeType : TxnChangeType}

/-- **The change aborts the pushee, or moves it past the pusher.** -/
lemma pushRequest_cases (h : pushRequest p latest pushType pusher = some (req, changeType)) :
    p.status = .pending ∧
      (req = { p with status := .aborted } ∧ changeType = .pushAbort ∨
        pushType = .pushTimestamp ∧ p.timestamp ≤ pusher.timestamp ∧
          ∃ t, pusher.timestamp.next = some t ∧ req = { p with timestamp := t } ∧
            changeType = .pushTimestamp) := by
  unfold pushRequest at h
  split_ifs at h with hp hlarge
  · cases h
    exact ⟨not_not.mp hp, .inl ⟨rfl, rfl⟩⟩
  · refine ⟨not_not.mp hp, ?_⟩
    cases pushType with
    | pushTimestamp =>
      obtain ⟨t, hnext, ht⟩ := Option.map_eq_some_iff.mp h
      cases ht
      have hle : p.timestamp ≤ pusher.timestamp :=
        not_lt.mp fun hlt => hlarge ⟨rfl, (Timestamp.large_iff _ _).mpr hlt⟩
      exact .inr ⟨rfl, hle, t, hnext, rfl, rfl⟩
    | pushAbort =>
      cases h
      exact .inl ⟨rfl, rfl⟩
    | pushTouch => cases h

/-- It is on the record of the pushee, which it aborts or leaves pending. -/
lemma pushRequest_spec (h : pushRequest p latest pushType pusher = some (req, changeType)) :
    req.id = p.id ∧ (changeType = .pushAbort ∧ req.status = .aborted ∨
      changeType = .pushTimestamp ∧ req.status = .pending) := by
  obtain ⟨hp, ⟨rfl, rfl⟩ | ⟨-, -, t, -, rfl, rfl⟩⟩ := pushRequest_cases h
  · exact ⟨rfl, .inl ⟨rfl, rfl⟩⟩
  · exact ⟨rfl, .inr ⟨rfl, hp⟩⟩

/-- The change goes through on the record it is asked for. -/
lemma nextTxn_pushRequest (h : pushRequest p latest pushType pusher = some (req, changeType)) :
    nextTxn (some p) req changeType = .ok (some req) := by
  obtain ⟨hp, ⟨rfl, rfl⟩ | ⟨-, hle, t, hnext, rfl, rfl⟩⟩ := pushRequest_cases h
  · exact nextTxn_pushAbort hp
  · exact nextTxn_pushTimestamp hp (hle.trans_lt (Timestamp.lt_next hnext))

lemma pushed_of_pushRequest (hnn : pusher.timestamp.Nonneg)
    (h : pushRequest p latest pushType pusher = some (req, changeType)) : Pushed p req := by
  obtain ⟨-, ⟨rfl, rfl⟩ | ⟨-, hle, t, hnext, rfl, rfl⟩⟩ := pushRequest_cases h
  · exact .aborted
  · exact .moved t (hle.trans_lt (Timestamp.lt_next hnext)) (Timestamp.nonneg_next hnn hnext)

/-- **A push makes the change it asks for and returns the record so changed.** If it asks for
none, it returns the record it has found, which is decided or past the pusher, or it fails. -/
theorem processPushTransaction_found (latest : Timestamp) (pushType : PushTxnType)
    (pusher : Transaction) (hg : mvccGetTxn s.eng id = .ok (some p)) :
    match pushRequest p latest pushType pusher with
    | some (req, changeType) =>
      processPushTransaction id latest pushType pusher s =
        (do mvccPutTxn req changeType false; return req : M Transaction) s
    | none =>
      processPushTransaction id latest pushType pusher s = .ok p s ∧
          (p.status ≠ .pending ∨ pushType = .pushTimestamp ∧ pusher.timestamp < p.timestamp) ∨
        ∃ e, processPushTransaction id latest pushType pusher s = .error e s := by
  rw [processPushTransaction, run_bind_ok (read_ok hg)]
  simp only [pushRequest]
  split_ifs with hst hlarge
  · exact .inl ⟨rfl, .inl hst⟩
  · exact .inl ⟨rfl, .inr ⟨hlarge.1, (Timestamp.large_iff _ _).mp hlarge.2⟩⟩
  · rfl
  · exact .inr ⟨_, rfl⟩
  · cases pushType with
    | pushTimestamp =>
      cases pusher.timestamp.next with
      | none => exact .inr ⟨_, rfl⟩
      | some t => rfl
    | pushAbort => rfl
    | pushTouch => exact .inr ⟨_, rfl⟩

/-- A push that finds no record fails. -/
lemma processPushTransaction_missing (latest : Timestamp) (pushType : PushTxnType)
    (pusher : Transaction) (hg : ∀ p, mvccGetTxn s.eng id ≠ .ok (some p)) :
    ∃ e, processPushTransaction id latest pushType pusher s = .error e s := by
  cases hget : mvccGetTxn s.eng id with
  | error e => exact ⟨e, run_bind_error (read_error hget)⟩
  | ok o =>
    cases o with
    | none =>
      rw [processPushTransaction, run_bind_ok (read_ok hget)]
      exact ⟨_, rfl⟩
    | some p => exact absurd hget (hg p)

/-- **A push that succeeds returns the record that is stored when it is over.** One that fails
has changed nothing. -/
theorem processPushTransaction_run (hid : id ≠ []) (latest : Timestamp) (pushType : PushTxnType)
    (pusher : Transaction) (hnn : pusher.timestamp.Nonneg)
    (hrid : ∀ r, recAt s.eng id = some r → r.id = id) :
    (∃ e, processPushTransaction id latest pushType pusher s = .error e s) ∨
    (∃ r, recAt s.eng id = some r ∧
      processPushTransaction id latest pushType pusher s = .ok r s) ∨
    ∃ r r' s', recAt s.eng id = some r ∧ r.status = .pending ∧ Pushed r r' ∧
      processPushTransaction id latest pushType pusher s = .ok r' s' ∧
      s'.eng = s.eng.put (newMVCCKey id) (.txn r') := by
  by_cases hg : ∃ p, mvccGetTxn s.eng id = .ok (some p)
  · obtain ⟨p, hg⟩ := hg
    have hlook : Looked s id .heartbeat (some p) := by simpa [Looked] using hg
    have hrec : recAt s.eng id = some p := recAt_of_looked hlook (by simp)
    have hfound := processPushTransaction_found latest pushType pusher hg
    cases hreq : pushRequest p latest pushType pusher with
    | none =>
      rw [hreq] at hfound
      rcases hfound with ⟨hok, -⟩ | herr
      · exact Or.inr (Or.inl ⟨p, hrec, hok⟩)
      · exact Or.inl herr
    | some x =>
      obtain ⟨req, changeType⟩ := x
      rw [hreq] at hfound
      obtain ⟨hrid', hct⟩ := pushRequest_spec hreq
      have hreqid : req.id = id := hrid'.trans (hrid p hrec)
      have hbegin : changeType ≠ .beginTxn := by
        rcases hct with ⟨rfl, -⟩ | ⟨rfl, -⟩ <;> simp
      obtain ⟨s', hs', he⟩ := mvccPutTxn_stored req false (by rwa [hreqid]) hbegin
        (by rwa [hreqid]) (nextTxn_pushRequest hreq)
      refine Or.inr (Or.inr ⟨p, req, s', hrec, (pushRequest_cases hreq).1,
        pushed_of_pushRequest hnn hreq, ?_, by rw [he, hreqid]⟩)
      exact hfound.trans (run_bind_ok hs')
  · exact Or.inl (processPushTransaction_missing latest pushType pusher (not_exists.mp hg))

end Stored

/-! ### Requests on records -/

inductive TxnRequest
  | beginTxn (txn : Transaction)
  | heartbeat (txn : Transaction)
  | push (req : PushTransactionRequest)
  | endTxn (txn : Transaction) (commit : Bool)
  deriving DecidableEq, Repr

def TxnRequest.apply (s : St) : TxnRequest → St
  | .beginTxn txn => stateAfter (beginTransaction txn) s
  | .heartbeat txn => stateAfter (heartbeatTransaction txn) s
  | .push req => stateAfter (pushTransaction req) s
  | .endTxn txn commit => stateAfter (endTransaction txn commit) s

/-- The requests of a list, each applied in the state the ones before it leave. -/
def applyAll (s : St) (l : List TxnRequest) : St := l.foldl TxnRequest.apply s

@[simp] lemma applyAll_nil (s : St) : applyAll s [] = s := rfl

@[simp] lemma applyAll_cons (s : St) (q : TxnRequest) (l : List TxnRequest) :
    applyAll s (q :: l) = applyAll (q.apply s) l := rfl

lemma applyAll_append (s : St) (l l' : List TxnRequest) :
    applyAll s (l ++ l') = applyAll (applyAll s l) l' := List.foldl_append

/-- The record is there and its transaction has ended. -/
def Decided (o : Option Transaction) : Prop := ∃ r, o = some r ∧ r.status ≠ .pending

section Final

variable {s : St} {id : Key} {r : Transaction}

/-- `MVCCPutTxn` leaves the engine as it was, or stores the next record. -/
lemma mvccPutTxn_effect (s : St) (req : Transaction) (changeType : TxnChangeType) (stats : Bool) :
    (stateAfter (mvccPutTxn req changeType stats) s).eng = s.eng ∨
      ∃ stored r, Looked s req.id changeType stored ∧
        nextTxn stored req changeType = .ok (some r) ∧
        (stateAfter (mvccPutTxn req changeType stats) s).eng =
          s.eng.put (newMVCCKey req.id) (.txn r) := by
  by_cases hl : ∃ stored, Looked s req.id changeType stored
  · obtain ⟨stored, hl⟩ := hl
    have hrun := mvccPutTxn_run req changeType stats hl
    cases hn : nextTxn stored req changeType with
    | error e =>
      rw [hn] at hrun
      exact Or.inl (by rw [stateAfter, hrun])
    | ok o =>
      cases o with
      | none =>
        rw [hn] at hrun
        exact Or.inl (by rw [stateAfter, hrun])
      | some r =>
        rw [hn] at hrun
        obtain ⟨s', hs', he⟩ := hrun
        exact Or.inr ⟨stored, r, hl, hn, by rw [stateAfter, hs', he]⟩
  · have hct : changeType ≠ .beginTxn := fun hct => hl ⟨none, by rw [Looked, if_pos hct]⟩
    cases hg : mvccGetTxn s.eng req.id with
    | error e => exact Or.inl (by rw [stateAfter, mvccPutTxn_lookup_error req stats hct hg])
    | ok stored => exact absurd ⟨stored, by rw [Looked, if_neg hct, hg]⟩ hl

/-- Only a begin with a pending record overwrites a decided record. -/
lemma mvccPutTxn_keeps {req : Transaction} {changeType : TxnChangeType} (stats : Bool)
    (h : ¬ (changeType = .beginTxn ∧ req.id = id ∧ req.status = .pending))
    (hr : recAt s.eng id = some r) (hst : r.status ≠ .pending) :
    recAt (stateAfter (mvccPutTxn req changeType stats) s).eng id = some r := by
  rcases mvccPutTxn_effect s req changeType stats with he | ⟨stored, r', hl, hn, he⟩
  · rwa [he]
  · rw [he, recAt_put_txn]
    split_ifs with hid
    · subst hid
      by_cases hct : changeType = .beginTxn
      · subst hct
        obtain rfl : stored = none := by simpa [Looked] using hl
        obtain ⟨e, hne⟩ := nextTxn_begin_decided fun hp : req.status = .pending => h ⟨rfl, rfl, hp⟩
        rw [hne] at hn
        cases hn
      · rw [← recAt_of_looked hl hct, hr] at hn
        obtain ⟨e, hne⟩ := nextTxn_decided req changeType hst
        rw [hne] at hn
        cases hn
    · exact hr

/-- **A push changes the state as the change it asks for does**, whether it succeeds or fails. -/
theorem processPushTransaction_state (key : Key) (latest : Timestamp) (pushType : PushTxnType)
    (pusher : Transaction) (s : St) :
    stateAfter (processPushTransaction key latest pushType pusher) s =
      match mvccGetTxn s.eng key with
      | .ok (some p) =>
        match pushRequest p latest pushType pusher with
        | some (req, changeType) => stateAfter (mvccPutTxn req changeType false) s
        | none => s
      | _ => s := by
  have hbind : ∀ (req : Transaction) (changeType : TxnChangeType),
      stateAfter (do mvccPutTxn req changeType false; return req) s =
        stateAfter (mvccPutTxn req changeType false) s := fun req changeType => by
    simp only [stateAfter, bind, EStateM.bind]
    cases mvccPutTxn req changeType false s <;> rfl
  split
  · next p hg =>
    have hfound := processPushTransaction_found latest pushType pusher hg
    split
    · next req changeType hreq =>
      rw [hreq] at hfound
      rw [stateAfter_congr hfound, hbind]
    · next hreq =>
      rw [hreq] at hfound
      rcases hfound with ⟨hok, -⟩ | ⟨e, herr⟩
      · rw [stateAfter, hok]
      · rw [stateAfter, herr]
  · next hg =>
    obtain ⟨e, herr⟩ := processPushTransaction_missing latest pushType pusher hg
    rw [stateAfter, herr]

/-- A push changes the state as one `MVCCPutTxn` that neither begins nor commits does, or not
at all. -/
lemma processPushTransaction_effect (key : Key) (latest : Timestamp) (pushType : PushTxnType)
    (pusher : Transaction) (s : St) :
    stateAfter (processPushTransaction key latest pushType pusher) s = s ∨
      ∃ req changeType, changeType ≠ .beginTxn ∧ req.status ≠ .committed ∧
        stateAfter (processPushTransaction key latest pushType pusher) s =
          stateAfter (mvccPutTxn req changeType false) s := by
  rw [processPushTransaction_state]
  split
  · split
    · next hreq =>
      obtain ⟨-, ⟨rfl, hst⟩ | ⟨rfl, hst⟩⟩ := pushRequest_spec hreq
      · exact Or.inr ⟨_, _, by simp, by simp [hst], rfl⟩
      · exact Or.inr ⟨_, _, by simp, by simp [hst], rfl⟩
    · exact Or.inl rfl
  · exact Or.inl rfl

lemma heartbeat_state (txn : Transaction) (s : St) :
    stateAfter (heartbeatTransaction txn) s = stateAfter (mvccPutTxn txn .heartbeat false) s := by
  simp only [stateAfter, heartbeatTransaction]
  cases mvccPutTxn txn .heartbeat false s with
  | ok _ s' => rfl
  | error e s' => cases e <;> rfl

/-- The request is a begin of `id` that carries a pending record. -/
def TxnRequest.Restarts (id : Key) : TxnRequest → Prop
  | .beginTxn txn => txn.id = id ∧ txn.status = .pending
  | _ => False

/-- A decided record outlives every request but a begin. -/
lemma apply_keeps {q : TxnRequest} (hq : ¬ q.Restarts id) (hr : recAt s.eng id = some r)
    (hst : r.status ≠ .pending) : recAt (q.apply s).eng id = some r := by
  cases q with
  | beginTxn txn => exact mvccPutTxn_keeps true (fun h => hq h.2) hr hst
  | heartbeat txn =>
    rw [TxnRequest.apply, heartbeat_state]
    exact mvccPutTxn_keeps false (by simp) hr hst
  | push req =>
    rcases processPushTransaction_effect req.pusheeKey req.latestTimestamp req.pushType req.txn s
      with he | ⟨txn, changeType, hct, -, he⟩
    · rwa [TxnRequest.apply, pushTransaction, he]
    · rw [TxnRequest.apply, pushTransaction, he]
      exact mvccPutTxn_keeps false (fun h => hct h.1) hr hst
  | endTxn txn commit => exact mvccPutTxn_keeps false (by simp) hr hst

/-- A begin with a pending record stores it, whatever stood there. -/
lemma apply_restarts {q : TxnRequest} (hq : q.Restarts id) :
    ∃ r, recAt (q.apply s).eng id = some r ∧ r.status = .pending := by
  cases q with
  | beginTxn txn =>
    obtain ⟨rfl, hp⟩ := hq
    have hlook : Looked s txn.id .beginTxn none := by simp [Looked]
    have hrun := mvccPutTxn_run txn .beginTxn true hlook
    rw [nextTxn_begin hp] at hrun
    obtain ⟨s', hs', he⟩ := hrun
    have happ : TxnRequest.apply s (.beginTxn txn) = s' := by
      rw [TxnRequest.apply, stateAfter, beginTransaction, hs']
    refine ⟨{ txn with lastHeartbeat := txn.timestamp.wallTime }, ?_, hp⟩
    rw [happ, he, recAt_put_txn, if_pos rfl]
  | heartbeat txn => exact hq.elim
  | push req => exact hq.elim
  | endTxn txn commit => exact hq.elim

lemma applyAll_keeps {l : List TxnRequest} (hr : recAt s.eng id = some r)
    (hst : r.status ≠ .pending)
    (h : ∀ l₁ q l₂, l = l₁ ++ q :: l₂ → q.Restarts id → ¬ Decided (recAt (applyAll s l₁).eng id)) :
    recAt (applyAll s l).eng id = some r := by
  induction l generalizing s with
  | nil => exact hr
  | cons q l ih =>
    have hq : ¬ q.Restarts id := fun hq => h [] q l rfl hq ⟨r, hr, hst⟩
    refine ih (apply_keeps hq hr hst) fun l₁ q' l₂ hl hq' => ?_
    exact h (q :: l₁) q' l₂ (by rw [hl]; rfl) hq'

/-- **When decisions are final.** Over a run of requests on records, a decided record keeps
its status for ever exactly when no begin is applied to it while it is decided. -/
theorem decision_final_iff (s : St) (id : Key) (l : List TxnRequest) :
    (∀ l₁ l₂ l₃, l = l₁ ++ l₂ ++ l₃ → ∀ r, recAt (applyAll s l₁).eng id = some r →
      r.status ≠ .pending → ∃ r', recAt (applyAll s (l₁ ++ l₂)).eng id = some r' ∧
        r'.status = r.status) ↔
    ∀ l₁ txn l₂, l = l₁ ++ .beginTxn txn :: l₂ → txn.id = id → txn.status = .pending →
      ¬ Decided (recAt (applyAll s l₁).eng id) := by
  constructor
  · rintro h l₁ txn l₂ hl hid hp ⟨r, hr, hst⟩
    obtain ⟨r', hr', hst'⟩ := h l₁ [.beginTxn txn] l₂ (by simp [hl]) r hr hst
    rw [applyAll_append, applyAll_cons, applyAll_nil] at hr'
    obtain ⟨r'', hr'', hp''⟩ := apply_restarts (s := applyAll s l₁)
      (show (TxnRequest.beginTxn txn).Restarts id from ⟨hid, hp⟩)
    rw [hr'', Option.some.injEq] at hr'
    exact hst (by rw [← hst', ← hr', hp''])
  · intro h l₁ l₂ l₃ hl r hr hst
    refine ⟨r, ?_, rfl⟩
    rw [applyAll_append]
    refine applyAll_keeps hr hst fun l₁' q l₂' hl₂ hq => ?_
    cases q with
    | beginTxn txn =>
      rw [← applyAll_append]
      exact h (l₁ ++ l₁') txn (l₂' ++ l₃) (by simp [hl, hl₂]) hq.1 hq.2
    | heartbeat txn => exact hq.elim
    | push req => exact hq.elim
    | endTxn txn commit => exact hq.elim

/-- A begin that is delivered again after the commit reopens the transaction. -/
theorem decision_reopened :
    let txn : Transaction := { id := [1, 65], timestamp := ⟨10, 0⟩ }
    let commit : Transaction := { txn with timestamp := ⟨20, 0⟩ }
    let l : List TxnRequest := [.beginTxn txn, .endTxn commit true]
    (recAt (applyAll {} l).eng txn.id).map (·.status) = some .committed ∧
      (recAt (applyAll {} (l ++ [.beginTxn txn])).eng txn.id).map (·.status) = some .pending := by
  decide

end Final

end Ancestor
