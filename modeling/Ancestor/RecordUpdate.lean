import Ancestor.Conflict

/-!
What a request does to a record that is stored (`MVCCPutTxn` of `storage/engine/mvcc.go`,
`processPushTransaction` of `storage/replica_command.go`).

One function serves heartbeats, ends and both kinds of pushes. On a pending record it takes the
larger timestamp, and beyond that changes what its kind allows; on a decided one it fails. A push
works out the new record itself and then asks for it, so what it returns and what is stored are
two computations.
-/

namespace Ancestor

open M Hoare

/-! ### Requests other than a begin -/

/-- The end of `MVCCPutTxn`, when the record has to be written. -/
def storeTxn (key : MVCCKey) (txn : Transaction) (stats : Bool) : M Unit := do
  putEng key (.txn txn)
  if stats then updateRangeStats 0 0 key.length txn.size

/-- The kinds that write the record even when they leave it as it is. -/
def TxnChangeType.Decides (changeType : TxnChangeType) : Prop :=
  changeType = .endTxn ∨ changeType = .pushAbort

instance (changeType : TxnChangeType) : Decidable changeType.Decides :=
  inferInstanceAs (Decidable (_ ∨ _))

/-- A call of `MVCCPutTxn`. -/
structure PutTxn where
  reqTxn : Transaction
  changeType : TxnChangeType
  stats : Bool := false
  deriving DecidableEq, Repr

def PutTxn.apply (s : St) (q : PutTxn) : St :=
  stateAfter (mvccPutTxn q.reqTxn q.changeType q.stats) s

section Update

variable {s : St} {r req : Transaction} {changeType : TxnChangeType}

lemma changedTxn_eq_self_iff : changedTxn r req changeType = r ↔
    (changeType.Decides → req.status = r.status) ∧
      (changeType = .heartbeat → ¬ r.lastHeartbeat < req.lastHeartbeat) ∧
      req.timestamp ≤ r.timestamp := by
  obtain ⟨name, id, priority, status, lastHeartbeat, timestamp, sequence⟩ := r
  simp only [changedTxn, Transaction.mk.injEq, true_and, and_true, max_eq_left_iff]
  refine and_congr ?_ (and_congr_left' ?_)
  · by_cases h : changeType = .pushAbort ∨ changeType = .endTxn
    · simp [h, TxnChangeType.Decides, h.symm]
    · simp [h, TxnChangeType.Decides, mt Or.symm h]
  · by_cases h : changeType = .heartbeat ∧ req.lastHeartbeat > lastHeartbeat
    · simp [h]
      grind
    · simp [h]
      grind

lemma changedTxn_same (hd : ¬ changeType.Decides)
    (hb : changeType = .heartbeat → ¬ r.lastHeartbeat < req.lastHeartbeat)
    (ht : req.timestamp ≤ r.timestamp) : changedTxn r req changeType = r :=
  changedTxn_eq_self_iff.mpr ⟨fun h => absurd h hd, hb, ht⟩

/-- **A pending record is rewritten when it changes or is decided.** -/
lemma nextTxn_pending (h : r.status = .pending) (req : Transaction) (changeType : TxnChangeType) :
    nextTxn (some r) req changeType =
      .ok (if changedTxn r req changeType ≠ r ∨ changeType.Decides then
        some (changedTxn r req changeType) else none) := by
  rcases lt_or_ge r.timestamp req.timestamp with ht | ht
  · -- the timestamp moves, whatever the kind
    have hne : changedTxn r req changeType ≠ r := fun he =>
      not_le.mpr ht (changedTxn_eq_self_iff.mp he).2.2
    rw [if_pos (.inl hne)]
    cases changeType with
    | heartbeat =>
      by_cases hb : r.lastHeartbeat < req.lastHeartbeat
      · simp [nextTxn, h, changedTxn, ht, ht.le, hb]
      · simp [nextTxn, h, changedTxn, ht, ht.le, hb]
    | beginTxn | endTxn | pushTimestamp | pushAbort => simp [nextTxn, h, changedTxn, ht, ht.le]
  · have hlt : ¬ r.timestamp < req.timestamp := not_lt.mpr ht
    cases changeType with
    | heartbeat =>
      by_cases hb : r.lastHeartbeat < req.lastHeartbeat
      · have hne : changedTxn r req .heartbeat ≠ r := fun he =>
          (changedTxn_eq_self_iff.mp he).2.1 rfl hb
        rw [if_pos (.inl hne)]
        simp [nextTxn, h, changedTxn, ht, hlt, hb]
      · have he : changedTxn r req .heartbeat = r := changedTxn_same (by decide) (fun _ => hb) ht
        simp [nextTxn, h, he, hlt, hb, TxnChangeType.Decides]
    | endTxn => simp [nextTxn, h, changedTxn, ht, hlt, TxnChangeType.Decides]
    | pushAbort => simp [nextTxn, h, changedTxn, ht, hlt, TxnChangeType.Decides]
    | beginTxn =>
      have he : changedTxn r req .beginTxn = r := changedTxn_same (by decide) (by simp) ht
      simp [nextTxn, h, he, hlt, TxnChangeType.Decides]
    | pushTimestamp =>
      have he : changedTxn r req .pushTimestamp = r := changedTxn_same (by decide) (by simp) ht
      simp [nextTxn, h, he, hlt, TxnChangeType.Decides]

lemma nextTxn_status_error (h : r.status ≠ .pending) (req : Transaction)
    (changeType : TxnChangeType) :
    ∃ msg retry, nextTxn (some r) req changeType = .error (.transactionStatus r msg retry) := by
  cases hst : r.status with
  | pending => exact absurd hst h
  | committed => exact ⟨_, _, if_pos hst⟩
  | aborted => exact ⟨_, _, (if_neg (by simp [hst])).trans (if_pos hst)⟩

/-- `MVCCPutTxn` after it has found the record. -/
lemma mvccPutTxn_found (stats : Bool) (hr : mvccGetTxn s.eng req.id = .ok (some r))
    (hct : changeType ≠ .beginTxn) :
    mvccPutTxn req changeType stats s =
      match nextTxn (some r) req changeType with
      | .error e => .error e s
      | .ok none => .ok () s
      | .ok (some r') => storeTxn (newMVCCKey req.id) r' stats s := by
  have hread : M.read (fun eng =>
      if changeType ≠ .beginTxn then mvccGetTxn eng req.id else .ok none) s = .ok (some r) s :=
    read_ok (by rw [if_pos hct, hr])
  simp only [mvccPutTxn]
  rw [run_bind_ok hread]
  cases hn : nextTxn (some r) req changeType with
  | error e => rfl
  | ok o => cases o <;> rfl

lemma storeTxn_run (key : MVCCKey) (txn : Transaction) (stats : Bool) (s : St) :
    ∃ s', storeTxn key txn stats s = .ok () s' ∧ s'.eng = s.eng.put key (.txn txn) := by
  cases stats <;> exact ⟨_, rfl, rfl⟩

/-- **On a pending record `MVCCPutTxn` succeeds**, and writes when there is something to write. -/
lemma mvccPutTxn_pending (stats : Bool) (hr : mvccGetTxn s.eng req.id = .ok (some r))
    (hct : changeType ≠ .beginTxn) (hp : r.status = .pending) :
    mvccPutTxn req changeType stats s =
      if changedTxn r req changeType ≠ r ∨ changeType.Decides then
        storeTxn (newMVCCKey req.id) (changedTxn r req changeType) stats s
      else .ok () s := by
  rw [mvccPutTxn_found stats hr hct, nextTxn_pending hp]
  by_cases hc : changedTxn r req changeType ≠ r ∨ changeType.Decides
  · rw [if_pos hc, if_pos hc]
  · rw [if_neg hc, if_neg hc]

lemma recAt_mvccPutTxn (stats : Bool) (hr : mvccGetTxn s.eng req.id = .ok (some r))
    (hct : changeType ≠ .beginTxn) (hp : r.status = .pending) :
    recAt (stateAfter (mvccPutTxn req changeType stats) s).eng req.id =
      some (changedTxn r req changeType) := by
  have hrun := mvccPutTxn_pending stats hr hct hp
  by_cases hc : changedTxn r req changeType ≠ r ∨ changeType.Decides
  · obtain ⟨s', hs', he⟩ := storeTxn_run (newMVCCKey req.id) (changedTxn r req changeType) stats s
    rw [if_pos hc, hs'] at hrun
    rw [stateAfter_ok hrun, he, recAt_put_txn, if_pos rfl]
  · -- what is not written is there already
    have hsame : changedTxn r req changeType = r := not_not.mp (not_or.mp hc).1
    have hlook : Looked s req.id changeType (some r) := by rwa [Looked, if_neg hct]
    rw [if_neg hc] at hrun
    rw [stateAfter_ok hrun, recAt_of_looked hlook hct, hsame]

lemma changedTxn_lastHeartbeat (h : changeType = .heartbeat) :
    (changedTxn r req changeType).lastHeartbeat = max r.lastHeartbeat req.lastHeartbeat := by
  show _ = if r.lastHeartbeat ≤ req.lastHeartbeat then req.lastHeartbeat else r.lastHeartbeat
  simp only [changedTxn, h, true_and]
  split_ifs with hlt hle hle
  · rfl
  · exact absurd (Int64.le_of_lt hlt) hle
  · exact Int64.le_antisymm hle (Int64.not_lt.mp hlt)
  · rfl

lemma le_changedTxn_timestamp : r.timestamp ≤ (changedTxn r req changeType).timestamp :=
  le_max_left _ _

lemma le_changedTxn_lastHeartbeat :
    r.lastHeartbeat ≤ (changedTxn r req changeType).lastHeartbeat := by
  simp only [changedTxn]
  split_ifs with h
  · exact Int64.le_of_lt h.2
  · exact Int64.le_refl _

/-- A request that is not a begin takes neither the timestamp nor the heartbeat back. -/
lemma PutTxn.grows {q : PutTxn} (hq : q.changeType ≠ .beginTxn) {id : Key}
    (hr : recAt s.eng id = some r) :
    ∃ r', recAt (q.apply s).eng id = some r' ∧ r.timestamp ≤ r'.timestamp ∧
      r.lastHeartbeat ≤ r'.lastHeartbeat := by
  rcases mvccPutTxn_effect s q.reqTxn q.changeType q.stats with he | ⟨stored, r', hl, hn, he⟩
  · exact ⟨r, by rwa [PutTxn.apply, he], le_refl _, Int64.le_refl _⟩
  · rw [PutTxn.apply, he, recAt_put_txn]
    by_cases hid : id = q.reqTxn.id
    · subst hid
      -- the record that is changed is the one stored
      obtain rfl : stored = some r := (recAt_of_looked hl hq).symm.trans hr
      obtain ⟨-, rfl⟩ := nextTxn_some hn
      exact ⟨_, if_pos rfl, le_changedTxn_timestamp, le_changedTxn_lastHeartbeat⟩
    · exact ⟨r, by rw [if_neg hid, hr], le_refl _, Int64.le_refl _⟩

lemma foldl_grows {l : List PutTxn} (hl : ∀ q ∈ l, q.changeType ≠ .beginTxn) {id : Key}
    (hr : recAt s.eng id = some r) :
    ∃ r', recAt (l.foldl PutTxn.apply s).eng id = some r' ∧ r.timestamp ≤ r'.timestamp ∧
      r.lastHeartbeat ≤ r'.lastHeartbeat := by
  induction l generalizing s r with
  | nil => exact ⟨r, hr, le_refl _, Int64.le_refl _⟩
  | cons q l ih =>
    obtain ⟨r₁, hr₁, ht₁, hb₁⟩ := PutTxn.grows (hl q List.mem_cons_self) hr
    obtain ⟨r₂, hr₂, ht₂, hb₂⟩ := ih (fun p hp => hl p (List.mem_cons_of_mem q hp)) hr₁
    exact ⟨r₂, hr₂, ht₁.trans ht₂, Int64.le_trans hb₁ hb₂⟩

/-- **A request changes of a record what its kind allows.** The record `r` that is found under
the ID of the request becomes `r'` when it is pending; when it is decided the request fails. Over
requests that are no begins neither the timestamp nor the heartbeat of a record goes back. -/
theorem record_update (stats : Bool) (hr : mvccGetTxn s.eng req.id = .ok (some r))
    (hct : changeType ≠ .beginTxn) :
    (r.status = .pending → ∃ r' : Transaction,
      (r'.id = r.id ∧ r'.name = r.name ∧ r'.priority = r.priority ∧ r'.sequence = r.sequence) ∧
      r'.timestamp = max r.timestamp req.timestamp ∧
      r'.lastHeartbeat =
        (if changeType = .heartbeat then max r.lastHeartbeat req.lastHeartbeat
          else r.lastHeartbeat) ∧
      r'.status = (if changeType = .endTxn ∨ changeType = .pushAbort then req.status
        else r.status) ∧
      mvccPutTxn req changeType stats s =
        (if r' ≠ r ∨ changeType = .endTxn ∨ changeType = .pushAbort
          then storeTxn (newMVCCKey req.id) r' stats s else .ok () s) ∧
      recAt (stateAfter (mvccPutTxn req changeType stats) s).eng req.id = some r') ∧
    (r.status ≠ .pending →
      ∃ msg retry, mvccPutTxn req changeType stats s = .error (.transactionStatus r msg retry) s) ∧
    ∀ l : List PutTxn, (∀ q ∈ l, q.changeType ≠ .beginTxn) → ∀ id t, recAt s.eng id = some t →
      ∃ t', recAt (l.foldl PutTxn.apply s).eng id = some t' ∧ t.timestamp ≤ t'.timestamp ∧
        t.lastHeartbeat ≤ t'.lastHeartbeat := by
  refine ⟨fun hp => ⟨changedTxn r req changeType, ⟨rfl, rfl, rfl, rfl⟩, rfl, ?_, ?_,
      mvccPutTxn_pending stats hr hct hp, recAt_mvccPutTxn stats hr hct hp⟩,
    fun hst => ?_, fun l hl id t ht => foldl_grows hl ht⟩
  · by_cases hb : changeType = .heartbeat
    · rw [if_pos hb, changedTxn_lastHeartbeat hb]
    · simp [changedTxn, hb]
  · simp [changedTxn, or_comm]
  · obtain ⟨msg, retry, he⟩ := nextTxn_status_error hst req changeType
    exact ⟨msg, retry, by rw [mvccPutTxn_found stats hr hct, he]⟩

/-- A pending record, and a state that holds one record and nothing else. -/
def openTxn : Transaction := { id := [1, 65], timestamp := ⟨3, 0⟩, lastHeartbeat := 3 }

def holding (r : Transaction) : St := ⟨OrdMap.empty.put (newMVCCKey r.id) (.txn r), {}⟩

/-- A heartbeat of a pending record, and after it an abort and a heartbeat that comes too late. -/
theorem record_update_heartbeat :
    (∃ r', recAt (stateAfter (mvccPutTxn { openTxn with lastHeartbeat := 30 } .heartbeat false)
        (holding openTxn)).eng [1, 65] = some r' ∧ r'.lastHeartbeat = 30 ∧ r'.status = .pending) ∧
    ∃ t', recAt ([⟨{ openTxn with lastHeartbeat := 30 }, .heartbeat, false⟩,
        ⟨{ openTxn with status := .aborted }, .pushAbort, false⟩,
        ⟨{ openTxn with lastHeartbeat := 40 }, .heartbeat, false⟩].foldl PutTxn.apply
          (holding openTxn)).eng [1, 65] = some t' ∧
      openTxn.timestamp ≤ t'.timestamp ∧ openTxn.lastHeartbeat ≤ t'.lastHeartbeat := by
  obtain ⟨hpending, -, hall⟩ := @record_update (holding openTxn) openTxn
    { openTxn with lastHeartbeat := 30 } .heartbeat false rfl (by decide)
  obtain ⟨r', -, -, hb, hst, -, hrec⟩ := hpending rfl
  exact ⟨⟨r', hrec, hb, hst⟩, hall _ (by simp) _ openTxn rfl⟩

end Update

/-! ### Pushes -/

section Push

variable {s : St} {r : Transaction}

/-- The change that a push asks for is on the record it has found, and goes through. -/
lemma mvccPutTxn_pushRequest (hrec : mvccGetTxn s.eng r.id = .ok (some r)) {latest : Timestamp}
    {pushType : PushTxnType} {pusher req : Transaction} {changeType : TxnChangeType}
    (hreq : pushRequest r latest pushType pusher = some (req, changeType)) :
    ∃ s', mvccPutTxn req changeType false s = .ok () s' ∧
      s'.eng = s.eng.put (newMVCCKey r.id) (.txn req) := by
  obtain ⟨hid, hct⟩ := pushRequest_spec hreq
  have hbegin : changeType ≠ .beginTxn := by
    rcases hct with ⟨rfl, -⟩ | ⟨rfl, -⟩ <;> simp
  have hput := mvccPutTxn_found false (hid.symm ▸ hrec) hbegin
  rw [nextTxn_pushRequest hreq] at hput
  obtain ⟨s', hs', he⟩ := storeTxn_run (newMVCCKey req.id) req false s
  exact ⟨s', hput.trans hs', by rw [he, hid]⟩

/-- A push fails and has changed nothing, or returns the record it has found, or the one it has
written. -/
lemma push_run (hrec : mvccGetTxn s.eng r.id = .ok (some r)) (latest : Timestamp)
    (pushType : PushTxnType) (pusher : Transaction) :
    (∃ e, processPushTransaction r.id latest pushType pusher s = .error e s) ∨
    processPushTransaction r.id latest pushType pusher s = .ok r s ∨
    ∃ p s', processPushTransaction r.id latest pushType pusher s = .ok p s' ∧
      s'.eng = s.eng.put (newMVCCKey r.id) (.txn p) := by
  have hfound := processPushTransaction_found latest pushType pusher hrec
  cases hreq : pushRequest r latest pushType pusher with
  | none =>
    rw [hreq] at hfound
    rcases hfound with ⟨hok, -⟩ | herr
    · exact .inr (.inl hok)
    · exact .inl herr
  | some x =>
    obtain ⟨req, changeType⟩ := x
    rw [hreq] at hfound
    obtain ⟨s', hs', he⟩ := mvccPutTxn_pushRequest hrec hreq
    exact .inr (.inr ⟨req, s', hfound.trans (run_bind_ok hs'), he⟩)

lemma push_decided (hrec : mvccGetTxn s.eng r.id = .ok (some r)) (hst : r.status ≠ .pending)
    (latest : Timestamp) (pushType : PushTxnType) (pusher : Transaction) :
    processPushTransaction r.id latest pushType pusher s = .ok r s := by
  rw [processPushTransaction, run_bind_ok (read_ok hrec)]
  simp only [if_pos hst]
  rfl

/-- **A push that succeeds settles the conflict and returns the record that is stored.** One that
fails leaves the record as it was. -/
theorem push_settles (hrec : mvccGetTxn s.eng r.id = .ok (some r)) (latest : Timestamp)
    (pushType : PushTxnType) (pusher : Transaction) :
    (∀ p s', processPushTransaction r.id latest pushType pusher s = .ok p s' →
      recAt s'.eng r.id = some p ∧
      (p.status = .committed ∨ p.status = .aborted ∨
        pushType = .pushTimestamp ∧ p.status = .pending ∧ pusher.timestamp < p.timestamp)) ∧
    (r.status ≠ .pending → processPushTransaction r.id latest pushType pusher s = .ok r s) ∧
    ∀ e s', processPushTransaction r.id latest pushType pusher s = .error e s' →
      recAt s'.eng r.id = some r := by
  have hstored : recAt s.eng r.id = some r := by
    have hlook : Looked s r.id .heartbeat (some r) := hrec
    exact recAt_of_looked hlook (by decide)
  refine ⟨fun p s' hok => ⟨?_, ?_⟩, fun hst => ?_, fun e s' herr => ?_⟩
  · rcases push_run hrec latest pushType pusher with ⟨e, he⟩ | hr | ⟨p', s₁, hp, he⟩
    · rw [he] at hok
      cases hok
    · rw [hr] at hok
      cases hok
      exact hstored
    · rw [hp] at hok
      cases hok
      rw [he, recAt_put_txn, if_pos rfl]
  · obtain ⟨-, hdec | ⟨hts, hlt⟩⟩ := push_outcome hrec hok
    · cases hst : p.status with
      | pending => exact absurd hst hdec
      | committed => exact .inl rfl
      | aborted => exact .inr (.inl rfl)
    · cases hst : p.status with
      | pending => exact .inr (.inr ⟨hts, rfl, hlt⟩)
      | committed => exact .inl rfl
      | aborted => exact .inr (.inl rfl)
  · exact push_decided hrec hst latest pushType pusher
  · rcases push_run hrec latest pushType pusher with ⟨e', he⟩ | hr | ⟨p', s₁, hp, -⟩
    · rw [he] at herr
      cases herr
      exact hstored
    · rw [hr] at herr
      cases herr
    · rw [hp] at herr
      cases herr

/-- A read at 5 moves the pending record past 5; a push of a record that was aborted returns it
as it is. -/
theorem push_settles_reader :
    (∃ p s', processPushTransaction [1, 65] ⟨6, 0⟩ .pushTimestamp
        { id := [1, 66], timestamp := ⟨5, 0⟩ } (holding openTxn) = .ok p s' ∧
      recAt s'.eng [1, 65] = some p ∧ p.timestamp = ⟨5, 1⟩) ∧
    processPushTransaction [1, 65] ⟨6, 0⟩ .pushAbort { id := [1, 66], timestamp := ⟨5, 0⟩ }
        (holding { openTxn with status := .aborted }) =
      .ok { openTxn with status := .aborted } (holding { openTxn with status := .aborted }) := by
  have hrec : mvccGetTxn (holding openTxn).eng openTxn.id = .ok (some openTxn) := rfl
  have hpush := (push_settles hrec ⟨6, 0⟩ .pushTimestamp
    { id := [1, 66], timestamp := ⟨5, 0⟩ }).1 { openTxn with timestamp := ⟨5, 1⟩ } _ rfl
  have hdecided := (@push_settles (holding { openTxn with status := .aborted })
    { openTxn with status := .aborted } rfl ⟨6, 0⟩ .pushAbort
    { id := [1, 66], timestamp := ⟨5, 0⟩ }).2.1 (by decide)
  exact ⟨⟨_, _, rfl, hpush.1, rfl⟩, hdecided⟩

end Push

end Ancestor
