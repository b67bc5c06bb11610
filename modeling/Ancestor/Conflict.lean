import Ancestor.Reapply
import Ancestor.Record

/-!
The intent in the way of a request (`storage/store.go`).

A read or a put that meets the intent of another transaction pushes that transaction,
resolves the intent with what the push has answered, and is tried again. The push is asked
for what the request needs: a read has to get past the intent, a put has to be rid of it. On badger
the intent of an aborted transaction stays in the way, unless an older version is found below it.
-/

namespace Ancestor

open M Hoare Steps

/-! ### The loop of `Send` -/

/-- `processWriteIntentError`, where the record and the intent are on this engine. -/
def processWriteIntentError [Backend] (latest : Timestamp) (wiErr : WriteIntentError) :
    M Transaction := do
  let pusheeTxn ← processPushTransaction wiErr.intent.txn.id latest wiErr.pushType wiErr.pusherTxn
  mvccResolveWriteIntent [⟨wiErr.intent.key, pusheeTxn⟩]
  return pusheeTxn

/-- The retry loop of `Send` around one request, with the clock's reading for the push of each
turn. The source has no bound on the turns; here the answer is `none` when the readings are
used up and the last push has been made in vain. -/
def sendLoop [Backend] {α : Type} (cmd : M α) : List Timestamp → M (Option α)
  | [] => return none
  | latest :: clock => fun s =>
    match cmd s with
    | .ok a s => .ok (some a) s
    | .error (.writeIntent wiErr) s =>
      match processWriteIntentError latest wiErr s with
      | .ok _ s => sendLoop cmd clock s
      | .error e s => .error e s
    | .error e s => .error e s

/-- The loop goes on to its next turn only after a push and a resolution. -/
lemma sendLoop_next [Backend] {α : Type} {cmd : M α} {latest : Timestamp}
    {clock : List Timestamp} {s s' : St}
    (h : sendLoop cmd (latest :: clock) s = .ok none s') :
    ∃ e s₀ p s₁ s₂, cmd s = .error (.writeIntent e) s₀ ∧
      processPushTransaction e.intent.txn.id latest e.pushType e.pusherTxn s₀ = .ok p s₁ ∧
      mvccResolveWriteIntent [⟨e.intent.key, p⟩] s₁ = .ok () s₂ ∧
      sendLoop cmd clock s₂ = .ok none s' := by
  simp only [sendLoop] at h
  split at h
  · cases h
  · next e s₀ hrun =>
    split at h
    · next q s₂ hproc =>
      unfold processWriteIntentError at hproc
      cases hpush : processPushTransaction e.intent.txn.id latest e.pushType e.pusherTxn s₀ with
      | error err s₁ =>
        rw [run_bind_error hpush] at hproc
        cases hproc
      | ok p s₁ =>
        rw [run_bind_ok hpush] at hproc
        cases hres : mvccResolveWriteIntent [⟨e.intent.key, p⟩] s₁ with
        | error err s₃ =>
          rw [run_bind_error hres] at hproc
          cases hproc
        | ok u s₃ =>
          rw [run_bind_ok hres] at hproc
          cases hproc
          exact ⟨e, s₀, _, s₁, _, hrun, hpush, hres, h⟩
    · cases h
  · cases h

/-! ### What is in the way -/

/-- A request that the intent `m` of another transaction stops: a put always, a read only when
it is not older. -/
def InTheWay (pushType : PushTxnType) (R : Transaction) (m : MVCCMetadata) : Prop :=
  m.transactionID ≠ [] ∧ m.transactionID ≠ R.id ∧
    (pushType = .pushTimestamp → m.timestamp ≤ R.timestamp)

section Meets

variable {k : Key} {R : Transaction} {e : WriteIntentError}

lemma mvccGet_ne_writeIntent (eng : Engine) (k : Key) (t : Timestamp) :
    mvccGet eng k t ≠ .error (.writeIntent e) := by
  unfold mvccGet mvccGetInternal
  split_ifs
  · simp
  · simp only
    split
    · simp
    · split_ifs
      · simp
      · split <;> simp

lemma mvccGetMeta_ok {eng : Engine} {r : Option MVCCMetadata × ℕ × ℕ}
    (h : mvccGetMeta eng k = .ok r) : k ≠ [] ∧ DataKey eng k := by
  unfold mvccGetMeta at h
  split_ifs at h with hk
  refine ⟨fun hnil => hk (by simp [hnil]), fun x hx => ?_⟩
  simp only [hx] at h
  cases x with
  | metaData m => exact ⟨m, rfl⟩
  | _ => cases h

lemma get_eq_error {eng : Engine} {req : RequestHeader} {err : Err} :
    get eng req = .error err ↔ getInternal eng req.key req.timestamp req.txn = .error err := by
  rw [get]
  cases getInternal eng req.key req.timestamp req.txn <;>
    simp [bind, Except.bind, pure, Except.pure]

/-- **The reads that fail with an intent.** -/
theorem get_writeIntent_iff {eng : Engine} (rangeID : RangeID) :
    get eng ⟨k, R.timestamp, rangeID, R⟩ = .error (.writeIntent e) ↔
      k ≠ [] ∧ ∃ m, metaAt eng k = some m ∧ InTheWay .pushTimestamp R m ∧
        e = newWriteIntentError R .pushTimestamp m.transactionID k := by
  rw [get_eq_error]
  cases hg : mvccGetMeta eng k with
  | error err =>
    refine iff_of_false (fun h => ?_) ?_
    · simp only [getInternal, hg, bind, Except.bind] at h
      cases h
      rcases mvccGetMeta_error hg with h | h <;> cases h
    · rintro ⟨hk, m, hm, -⟩
      obtain ⟨a, b, hok⟩ := mvccGetMeta_eq (s := ⟨eng, {}⟩) (dataKey_of_metaAt hm) hk
      rw [hok] at hg
      cases hg
  | ok x =>
    obtain ⟨hk, hd⟩ := mvccGetMeta_ok hg
    rw [getInternal_eq hd hk]
    cases hm : metaAt eng k with
    | none => simp
    | some m =>
      simp only [Option.some.injEq, exists_eq_left', hk, ne_eq, not_false_eq_true, true_and,
        InTheWay, forall_const]
      by_cases hblock : m.transactionID ≠ [] ∧ m.transactionID ≠ R.id ∧ m.timestamp ≤ R.timestamp
      · simp [hblock, eq_comm]
      · refine iff_of_false (fun h => ?_) fun h => hblock h.1
        -- past the intent only the version can be in error, and not with an intent
        have hval : ∀ t, (mvccGet eng k t).map (·.1) ≠ .error (.writeIntent e) := fun t h => by
          cases hv : mvccGet eng k t with
          | ok p =>
            rw [hv] at h
            cases h
          | error err =>
            rw [hv] at h
            cases h
            exact mvccGet_ne_writeIntent eng k t hv
        rw [if_neg hblock] at h
        split_ifs at h <;> exact hval _ h

/-- The command is stopped by the intents on `k` that are in its way, and by no others. -/
def StoppedAt {α : Type} (cmd : M α) (k : Key) (pushType : PushTxnType) (R : Transaction) : Prop :=
  ∀ s e s', cmd s = .error (.writeIntent e) s' ↔
    s' = s ∧ k ≠ [] ∧ ∃ m, metaAt s.eng k = some m ∧ InTheWay pushType R m ∧
      e = newWriteIntentError R pushType m.transactionID k

lemma get_stoppedAt (k : Key) (rangeID : RangeID) (R : Transaction) :
    StoppedAt (M.read (get · ⟨k, R.timestamp, rangeID, R⟩)) k .pushTimestamp R := by
  intro s e s'
  rw [← get_writeIntent_iff rangeID, M.read]
  cases hg : get s.eng ⟨k, R.timestamp, rangeID, R⟩ with
  | ok v => simp
  | error err => simp [and_comm, eq_comm]

lemma put_stoppedAt [Backend] (k : Key) (rangeID : RangeID) (R : Transaction) (value : Value) :
    StoppedAt (put ⟨⟨k, R.timestamp, rangeID, R⟩, value⟩) k .pushAbort R := by
  intro s e s'
  constructor
  · intro h
    by_cases hf : k ≠ [] ∧ Foreign ⟨⟨k, R.timestamp, rangeID, R⟩, value⟩ (metaAt s.eng k)
    · obtain ⟨hk, m, hm, hne, hid⟩ := hf
      rw [put_foreign hk hm hne hid] at h
      cases h
      exact ⟨rfl, hk, m, hm, ⟨hne, hid, fun h => by cases h⟩, rfl⟩
    · exact absurd rfl (((put_not_foreign hf).1 _ _ h).2 e)
  · rintro ⟨rfl, hk, m, hm, ⟨hne, hid, -⟩, rfl⟩
    exact put_foreign hk hm hne hid

end Meets

/-! ### What a push answers -/

section Push

variable {s s₁ : St} {latest : Timestamp} {pushType : PushTxnType} {P R p : Transaction}

/-- A push that succeeds writes no entry but the record it is on. -/
lemma push_ok_state (hrec : mvccGetTxn s.eng P.id = .ok (some P))
    (h : processPushTransaction P.id latest pushType R s = .ok p s₁) :
    s₁.eng = s.eng ∨ ∃ r, s₁.eng = s.eng.put (newMVCCKey P.id) (.txn r) := by
  have hst := processPushTransaction_state P.id latest pushType R s
  rw [stateAfter_ok h, hrec] at hst
  simp only at hst
  split at hst
  · next req changeType hreq =>
    rw [hst, ← (pushRequest_spec hreq).1]
    rcases mvccPutTxn_effect s req changeType false with he | ⟨_, r, -, -, he⟩
    · exact .inl he
    · exact .inr ⟨r, he⟩
  · exact .inl (by rw [hst])

/-- **A push that succeeds has decided the transaction or left it past the pusher.** Only the
push of a read is content with the second. -/
theorem push_outcome (hrec : mvccGetTxn s.eng P.id = .ok (some P))
    (h : processPushTransaction P.id latest pushType R s = .ok p s₁) :
    p.id = P.id ∧
      (p.status ≠ .pending ∨ pushType = .pushTimestamp ∧ R.timestamp < p.timestamp) := by
  have hfound := processPushTransaction_found latest pushType R hrec
  cases hreq : pushRequest P latest pushType R with
  | none =>
    rw [hreq] at hfound
    rcases hfound with ⟨hok, hout⟩ | ⟨e, herr⟩
    · rw [hok] at h
      cases h
      exact ⟨rfl, hout⟩
    · rw [herr] at h
      cases h
  | some x =>
    obtain ⟨req, changeType⟩ := x
    rw [hreq] at hfound
    simp only at hfound
    have hp : p = req := by
      cases hput : mvccPutTxn req changeType false s with
      | ok _ s' =>
        rw [hfound, run_bind_ok hput] at h
        cases h
        rfl
      | error e s' =>
        rw [hfound, run_bind_error hput] at h
        cases h
    subst hp
    obtain ⟨-, ⟨rfl, -⟩ | ⟨hts, -, t, hnext, rfl, -⟩⟩ := pushRequest_cases hreq
    · exact ⟨rfl, .inl (by simp)⟩
    · exact ⟨rfl, .inr ⟨hts, Timestamp.lt_next hnext⟩⟩

end Push

/-! ### The conflict on badger -/

section Shipped

variable {s s₁ : St} {k : Key} {m : MVCCMetadata} {pushType : PushTxnType} {P R p : Transaction}
  {latest : Timestamp}

/-- A push that succeeds finds the transaction aborted or aborts it: it does so when the
transaction has expired, and when that is what it is asked for. -/
def EndsAborted (P : Transaction) (latest : Timestamp) (pushType : PushTxnType)
    (R : Transaction) : Prop :=
  P.status = .aborted ∨
    P.status = .pending ∧ ¬ (pushType = .pushTimestamp ∧ R.timestamp < P.timestamp) ∧
      (latest.wallTime - P.lastHeartbeat > txnExpiredTime ∨ pushType = .pushAbort)

/-- **The record that a push answers with is aborted** exactly then. -/
lemma push_aborted_iff (hrec : mvccGetTxn s.eng P.id = .ok (some P))
    (h : processPushTransaction P.id latest pushType R s = .ok p s₁) :
    p.status = .aborted ↔ EndsAborted P latest pushType R := by
  have hput : ∀ req changeType, (do mvccPutTxn req changeType false; return req : M Transaction) s =
      .ok p s₁ → p = req := fun req changeType h => by
    cases hrun : mvccPutTxn req changeType false s with
    | ok _ s' =>
      rw [run_bind_ok hrun] at h
      cases h
      rfl
    | error e s' =>
      rw [run_bind_error hrun] at h
      cases h
  rw [processPushTransaction, run_bind_ok (read_ok hrec)] at h
  unfold EndsAborted
  simp only at h
  split_ifs at h with hst hlarge hexp hprio
  · cases h
    simp [hst]
  · cases h
    have hp := not_not.mp hst
    simp [hp, hlarge.1, (Timestamp.large_iff _ _).mp hlarge.2]
  · cases hput _ _ h
    refine iff_of_true rfl (.inr ⟨not_not.mp hst, fun hlt => hlarge ⟨hlt.1, ?_⟩, .inl hexp⟩)
    exact (Timestamp.large_iff _ _).mpr hlt.2
  · cases h
  · have hp := not_not.mp hst
    cases pushType with
    | pushTimestamp =>
      cases hnext : R.timestamp.next with
      | none =>
        rw [hnext] at h
        cases h
      | some t =>
        rw [hnext] at h
        cases hput _ _ h
        simp [hp, hexp]
    | pushAbort =>
      cases hput _ _ h
      simp [hp]
    | pushTouch => cases h

variable [Slices]

attribute [local instance] Backend.badger

/-- The push and the resolution rid the request of the intent: the transaction does not end
aborted, or the abort finds an older version of the key and can read what it has kept of its
key. -/
def Clears (eng : Engine) (k : Key) (m : MVCCMetadata) (P : Transaction) (latest : Timestamp)
    (pushType : PushTxnType) (R : Transaction) : Prop :=
  EndsAborted P latest pushType R → uncovered eng k m ≠ none

/-- **What the push and the resolution leave in the way.** -/
lemma push_resolve_iff (h : Arranged s.eng) (hk : k ≠ []) (hm : metaAt s.eng k = some m)
    (hid : P.id = m.transactionID) (hrec : mvccGetTxn s.eng P.id = .ok (some P))
    (hway : InTheWay pushType R m)
    (hpush : processPushTransaction P.id latest pushType R s = .ok p s₁) :
    ∃ s₂ m', mvccResolveWriteIntent [⟨k, p⟩] s₁ = .ok () s₂ ∧ metaAt s₂.eng k = some m' ∧
      (¬ InTheWay pushType R m' ↔ Clears s.eng k m P latest pushType R) := by
  obtain ⟨hpid, hp⟩ := push_outcome hrec hpush
  have hidp : m.transactionID = p.id := by rw [hpid, hid]
  have hab := push_aborted_iff hrec hpush
  have hne : k ≠ P.id := by
    rintro rfl
    have hget := get_of_metaAt hm
    rw [get_of_mvccGetTxn hrec] at hget
    cases hget
  -- the push has left the key as it was, and under the record's key there was a record before
  have hbefore : Carried s₁.eng ∧ metaAt s₁.eng k = some m ∧
      uncovered s₁.eng k m = uncovered s.eng k m := by
    rcases push_ok_state hrec hpush with he | ⟨r, he⟩
    · rw [he]
      exact ⟨h.carried, hm, rfl⟩
    · rw [he]
      refine ⟨(h.put_txn P.id r).carried, ?_, uncovered_put_key h.ok.versioned ?_ _⟩
      · rw [metaAt, OrdMap.get_put, if_neg (mt newMVCCKey_inj.mp hne)]
        exact hm
      · simp [get_of_mvccGetTxn hrec]
  obtain ⟨hc, hm₁, hun⟩ := hbefore
  obtain ⟨s₂, hs₂, -, hturn⟩ := hc.step (i := ⟨k, p⟩) (hidp ▸ hway.1)
  rcases hturn with ⟨-, hf⟩ | ⟨m', v, -, hm', -, he⟩
  · exact absurd ⟨hk, m, hm₁, hidp⟩ hf
  obtain rfl : m = m' := Option.some.inj (hm₁.symm.trans hm')
  refine ⟨s₂, _, resolve_of_run (run_cons.mpr ⟨s₂, hs₂, rfl⟩),
    by rw [he]; exact metaAt_resolved (i := ⟨k, p⟩) hm₁, ?_⟩
  unfold Clears resolvedTo
  rw [← hab, hun]
  cases hst : p.status with
  | pending =>
    obtain ⟨hts, hlt⟩ := hp.resolve_left (not_not.mpr hst)
    refine iff_of_true (fun hway' => ?_) (by simp)
    simp only [if_pos ((hway.2.2 hts).trans_lt hlt)] at hway'
    exact not_lt.mpr (hway'.2.2 hts) hlt
  | committed => exact iff_of_true (fun hway' => hway'.1 rfl) (by simp)
  | aborted =>
    cases hu : uncovered s.eng k m with
    | none => simpa [hun, hu] using hway
    | some m' =>
      refine iff_of_true (fun hway' => hway'.1 ?_) (by simp)
      simpa [hun, hu] using uncovered_bare hu

/-- A command that an intent stops is not stopped again, exactly if it is rid of the intent. -/
theorem StoppedAt.not_again_iff {α : Type} {cmd : M α} (hcmd : StoppedAt cmd k pushType R)
    (h : Arranged s.eng) (hm : metaAt s.eng k = some m) (hid : m.transactionID = P.id)
    (hrec : mvccGetTxn s.eng P.id = .ok (some P)) {e : WriteIntentError} {s₀ : St}
    (he : cmd s = .error (.writeIntent e) s₀)
    (hpush : processPushTransaction e.intent.txn.id latest e.pushType e.pusherTxn s₀ = .ok p s₁) :
    ∃ s₂, mvccResolveWriteIntent [⟨k, p⟩] s₁ = .ok () s₂ ∧
      ((∀ e' s', cmd s₂ ≠ .error (.writeIntent e') s') ↔
        Clears s.eng k m P latest pushType R) := by
  obtain ⟨rfl, hk, m', hm', hway, rfl⟩ := (hcmd _ _ _).mp he
  obtain rfl := Option.some.inj (hm.symm.trans hm')
  simp only [newWriteIntentError, hid] at hpush
  obtain ⟨s₂, m₂, hs₂, hm₂, hiff⟩ := push_resolve_iff h hk hm hid.symm hrec hway hpush
  refine ⟨s₂, hs₂, ?_⟩
  rw [← hiff]
  refine ⟨fun hno hway₂ => ?_, fun hno e' s' he' => ?_⟩
  · exact hno _ _ ((hcmd s₂ _ s₂).mpr ⟨rfl, hk, m₂, hm₂, hway₂, rfl⟩)
  · obtain ⟨-, -, m₃, hm₃, hway₃, -⟩ := (hcmd _ _ _).mp he'
    obtain rfl := Option.some.inj (hm₂.symm.trans hm₃)
    exact hno hway₃

/-- The loop around it makes one push at most, if that rids it of the intent. -/
lemma StoppedAt.sendLoop_clears {α : Type} {cmd : M α} (hcmd : StoppedAt cmd k pushType R)
    (h : Arranged s.eng) (hm : metaAt s.eng k = some m) (hid : m.transactionID = P.id)
    (hrec : mvccGetTxn s.eng P.id = .ok (some P)) (hclears : Clears s.eng k m P latest pushType R)
    (latest' : Timestamp) (s' : St) : sendLoop cmd [latest, latest'] s ≠ .ok none s' := by
  intro hloop
  obtain ⟨e, s₀, p, s₁, s₂, he, hpush, hres, hloop⟩ := sendLoop_next hloop
  obtain ⟨e', s₃, -, -, -, he', -⟩ := sendLoop_next hloop
  obtain ⟨s₂', hres', hiff⟩ := hcmd.not_again_iff h hm hid hrec he hpush
  have hkey : e.intent.key = k := by
    obtain ⟨-, -, m', -, -, rfl⟩ := (hcmd _ _ _).mp he
    rfl
  rw [hkey, hres'] at hres
  cases hres
  exact hiff.mpr hclears e' s₃ he'

/-- **When resolving a conflict removes it.** A read or a put of `R` that the intent of `P` on `k`
stops is not stopped again after the push and the resolution, exactly if these rid it of the
intent; and `Send` then pushes no more than once. -/
theorem conflict_removed_iff (h : Arranged s.eng) (hm : metaAt s.eng k = some m)
    (hid : m.transactionID = P.id) (hrec : mvccGetTxn s.eng P.id = .ok (some P))
    (R : Transaction) (rangeID : RangeID) (value : Value) (latest : Timestamp) :
    (∀ e p s₁, get s.eng ⟨k, R.timestamp, rangeID, R⟩ = .error (.writeIntent e) →
      processPushTransaction e.intent.txn.id latest e.pushType e.pusherTxn s = .ok p s₁ →
      ∃ s₂, mvccResolveWriteIntent [⟨k, p⟩] s₁ = .ok () s₂ ∧
        ((∀ e', get s₂.eng ⟨k, R.timestamp, rangeID, R⟩ ≠ .error (.writeIntent e')) ↔
          Clears s.eng k m P latest .pushTimestamp R)) ∧
    (∀ e p s₀ s₁, put ⟨⟨k, R.timestamp, rangeID, R⟩, value⟩ s = .error (.writeIntent e) s₀ →
      processPushTransaction e.intent.txn.id latest e.pushType e.pusherTxn s₀ = .ok p s₁ →
      ∃ s₂, mvccResolveWriteIntent [⟨k, p⟩] s₁ = .ok () s₂ ∧
        ((∀ e' s', put ⟨⟨k, R.timestamp, rangeID, R⟩, value⟩ s₂ ≠ .error (.writeIntent e') s') ↔
          Clears s.eng k m P latest .pushAbort R)) ∧
    ∀ latest' s',
      (Clears s.eng k m P latest .pushTimestamp R →
        sendLoop (M.read (get · ⟨k, R.timestamp, rangeID, R⟩)) [latest, latest'] s ≠ .ok none s') ∧
      (Clears s.eng k m P latest .pushAbort R →
        sendLoop (put ⟨⟨k, R.timestamp, rangeID, R⟩, value⟩) [latest, latest'] s ≠
          .ok none s') := by
  have hget := get_stoppedAt k rangeID R
  have hput := put_stoppedAt k rangeID R value
  refine ⟨fun e p s₁ he hpush => ?_, fun e p s₀ s₁ => hput.not_again_iff h hm hid hrec,
    fun latest' s' => ⟨fun hc => hget.sendLoop_clears h hm hid hrec hc latest' s',
      fun hc => hput.sendLoop_clears h hm hid hrec hc latest' s'⟩⟩
  obtain ⟨s₂, hs₂, hiff⟩ := hget.not_again_iff h hm hid hrec (read_error he) hpush
  refine ⟨s₂, hs₂, Iff.trans ⟨fun hno e' s' he' => ?_, fun hno e' he' => ?_⟩ hiff⟩
  · have hrun : M.read (get · ⟨k, R.timestamp, rangeID, R⟩) s₂ = _ := he'
    unfold M.read at hrun
    cases hg : get s₂.eng ⟨k, R.timestamp, rangeID, R⟩ with
    | ok a => simp [hg] at hrun
    | error err =>
      simp only [hg, EStateM.Result.error.injEq] at hrun
      exact hno e' (by rw [hg, hrun.1])
  · exact hno e' s₂ (read_error he')

end Shipped

section InVain

attribute [local instance] Slices.twoItems Backend.badger

/-- A read at 5 pushes the transaction past 5 and is not stopped again. -/
theorem conflict_removed_iff_reader :
    ∃ s₁ s₂, processPushTransaction [0x01] ⟨6, 0⟩ .pushTimestamp
        { id := [0x01, 0x01], timestamp := ⟨5, 0⟩ } blocked =
        .ok { id := [0x01], timestamp := ⟨5, 1⟩, lastHeartbeat := 3 } s₁ ∧
      mvccResolveWriteIntent
        [⟨[0x02, 0x61], { id := [0x01], timestamp := ⟨5, 1⟩, lastHeartbeat := 3 }⟩] s₁ =
        .ok () s₂ ∧
      ∀ e, get s₂.eng ⟨[0x02, 0x61], ⟨5, 0⟩, 4, { id := [0x01, 0x01], timestamp := ⟨5, 0⟩ }⟩ ≠
        .error (.writeIntent e) := by
  have hres := (conflict_removed_iff
    (P := { id := [0x01], timestamp := ⟨3, 0⟩, lastHeartbeat := 3 })
    (m := ⟨[0x01], ⟨3, 0⟩, false⟩) (k := [0x02, 0x61]) blocked_arranged rfl rfl rfl
    { id := [0x01, 0x01], timestamp := ⟨5, 0⟩ } 4 {} ⟨6, 0⟩).1
  obtain ⟨s₂, hs₂, hiff⟩ := hres _ _ _ rfl rfl
  refine ⟨_, s₂, rfl, hs₂, hiff.mpr fun hends => ?_⟩
  rcases hends with hst | ⟨-, -, hexp | hpush⟩
  · cases hst
  · revert hexp
    decide
  · cases hpush

/-- A put at 5 aborts the transaction, and meets its intent again: `Send` pushes without end. -/
theorem put_stopped_again :
    ∃ s₁ s₂ e, processPushTransaction [0x01] ⟨6, 0⟩ .pushAbort
        { id := [0x01, 0x01], timestamp := ⟨5, 0⟩ } blocked =
        .ok { id := [0x01], status := .aborted, timestamp := ⟨3, 0⟩, lastHeartbeat := 3 } s₁ ∧
      mvccResolveWriteIntent [⟨[0x02, 0x61],
        { id := [0x01], status := .aborted, timestamp := ⟨3, 0⟩, lastHeartbeat := 3 }⟩] s₁ =
        .ok () s₂ ∧
      (∃ s, put ⟨⟨[0x02, 0x61], ⟨5, 0⟩, 4, { id := [0x01, 0x01], timestamp := ⟨5, 0⟩ }⟩,
        { bytes := [7] }⟩ s₂ = .error (.writeIntent e) s) ∧
      ∃ s, sendLoop (put ⟨⟨[0x02, 0x61], ⟨5, 0⟩, 4, { id := [0x01, 0x01], timestamp := ⟨5, 0⟩ }⟩,
        { bytes := [7] }⟩) [⟨6, 0⟩, ⟨7, 0⟩, ⟨8, 0⟩] blocked = .ok none s :=
  ⟨_, _, _, rfl, rfl, ⟨_, rfl⟩, ⟨_, rfl⟩⟩

end InVain

end Ancestor
