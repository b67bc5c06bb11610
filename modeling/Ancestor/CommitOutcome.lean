import Ancestor.NodeRequest
import Ancestor.Record

/-!
What the client learns about its commit (`client/txn.go`).

`EndTransaction` sends its request through the retry loop. An attempt may be lost on its way,
or carried out with its reply lost; the loop cannot tell the two apart and sends the request
again, and a record that is committed answers a second end with an error.
-/

namespace Ancestor.Client

open Hoare

/-! ### The end of a transaction -/

/-- The type assertion for a `NeedRetryError`, which does not look below `errors.Trace`: only
the error of a loop that has run out of retries passes it. -/
def Error.isNeedRetry : Error → Bool
  | ⟨.needRetry _, false⟩ => true
  | _ => false

/-- The result of `EndTransaction`: the transaction as it leaves it, and whether the intents
are handed over for resolution. -/
structure EndResult where
  err : Option Error
  txn : Transaction
  send : Bool
  deriving DecidableEq, Repr

section

variable {W : Type} (b : Base W) (getTimestamp : CM W Timestamp)
  (sender : NodeID → EndTransactionRequest → W → Reply × W)

def nodeEndTransaction (txn : Transaction) (commit : Bool) (id : NodeID) (rd : RangeDescriptor) :
    CM W Unit := fun w =>
  let req : EndTransactionRequest :=
    { key := txn.id, timestamp := txn.timestamp, rangeID := rd.rangeID, txn, commit }
  let (reply, w) := sender id req w
  runWithResult reply w

def endTransaction (txn : Transaction) (dirty commit : Bool) (w : W) : EndResult × W :=
  match getTimestamp w with
  | .error e w => (⟨some e.trace, txn, false⟩, w)
  | .ok timestamp w =>
    let txn := { txn with timestamp }
    match doNodeRequest b txn.id (nodeEndTransaction sender txn commit) w with
    | .ok _ w => (⟨none, txn, dirty⟩, w)
    | .error e w =>
      let txn := if e.isNeedRetry then { txn with status := .aborted } else txn
      (⟨some e.trace, txn, false⟩, w)

end

/-! ### A network that loses messages -/

/-- What becomes of one attempt: it is not applied, and the connection breaks or a node answers
with an error; or it is applied, and the reply arrives or is lost. -/
inductive Fate
  | notApplied (e : Option Err)
  | delivered
  | replyLost
  deriving DecidableEq, Repr

/-- What surrounds one attempt: the pushes that come before it, its fate, whether the client is
stopped after it, and what the caches answer. -/
structure Attempt where
  pushes : List PushTransactionRequest := []
  fate : Fate
  stop : Bool := false
  conn : Option Error := none
  lookup : Except Error RangeDesc :=
    .ok { desc := { rangeID := 1, startKey := [], endKey := [], replicas := [⟨1, 0⟩] } }

/-- The status of the record that a request on transaction `id` finds. -/
def storedStatus (eng : Engine) (id : Key) : Option TransactionStatus :=
  match mvccGetTxn eng id with
  | .ok txn => txn.map (·.status)
  | .error _ => none

/-- The store that holds the record, and for each attempt so far the status it has met and its
fate. -/
structure World where
  st : St
  log : List (Option TransactionStatus × Fate) := []
  stop : Bool := false

namespace World

variable (env : ℕ → Attempt)

/-- What surrounds the attempt that comes next. -/
def next (w : World) : Attempt := env w.log.length

def base : Base World where
  getRangeDescFromCache _ := fun w =>
    match (w.next env).lookup with
    | .ok rd => .ok rd w
    | .error e => .error e w
  clearRangeCache := return
  getNodeConn _ := fun w =>
    match (w.next env).conn with
    | none => .ok () w
    | some e => .error e w
  isStop := fun w => .ok w.stop w

/-- The store once the pushes before the next attempt are applied. -/
def pushed (w : World) : St := applyAll w.st ((w.next env).pushes.map .push)

/-- The world after an attempt that leaves the store in `st`. -/
def after (w : World) (id : Key) (st : St) : World :=
  { st, log := w.log ++ [(storedStatus (w.pushed env).eng id, (w.next env).fate)],
    stop := (w.next env).stop }

def sender (_ : NodeID) (req : EndTransactionRequest) (w : World) : Reply × World :=
  match (w.next env).fate with
  | .notApplied none => (.connectError, w.after env req.txn.id (w.pushed env))
  | .notApplied (some e) => (.answer (some e), w.after env req.txn.id (w.pushed env))
  | .delivered =>
    match Ancestor.endTransaction req.txn req.commit (w.pushed env) with
    | .ok _ st => (.answer none, w.after env req.txn.id st)
    | .error e st => (.answer (some e), w.after env req.txn.id st)
  | .replyLost =>
    let st := stateAfter (Ancestor.endTransaction req.txn req.commit) (w.pushed env)
    (.connectError, w.after env req.txn.id st)

end World

/-- `EndTransaction(true)` on a store, in the surroundings `env` and with the answer of the
oracle. -/
def commit (env : ℕ → Attempt) (timestamp : Except Error Timestamp) (txn : Transaction)
    (dirty : Bool) (st : St) : EndResult × World :=
  let getTimestamp : CM World Timestamp := fun w =>
    match timestamp with
    | .ok ts => .ok ts w
    | .error e => .error e w
  endTransaction (World.base env) getTimestamp (World.sender env) txn dirty true { st }

/-- The client and the record agree. -/
def Agrees (id : Key) (r : EndResult × World) : Prop :=
  (r.1.err.isSome → storedStatus r.2.st.eng id ≠ some .committed) ∧
    (r.1.err = none → storedStatus r.2.st.eng id = some .committed)

instance (id : Key) (r : EndResult × World) : Decidable (Agrees id r) :=
  inferInstanceAs (Decidable ((_ → _) ∧ (_ → _)))

/-- An attempt has met the pending record, and its reply was lost. -/
def CommitUnheard (w : World) : Prop := (some .pending, .replyLost) ∈ w.log

instance (w : World) : Decidable (CommitUnheard w) :=
  inferInstanceAs (Decidable (_ ∈ w.log))

/-! ### Requests on the record -/

section Record

variable {s : St} {id : Key}

lemma storedStatus_eq (eng : Engine) (id : Key) :
    storedStatus eng id = if id = [] then none else (recAt eng id).map (·.status) := by
  unfold storedStatus mvccGetTxn recAt
  by_cases hid : id = []
  · simp [hid]
  · rw [if_neg (by simpa using hid), if_neg hid]
    cases eng.get (newMVCCKey id) with
    | none => rfl
    | some e => cases e <;> rfl

lemma storedStatus_some {st : TransactionStatus} : storedStatus s.eng id = some st ↔
    id ≠ [] ∧ ∃ r, recAt s.eng id = some r ∧ r.status = st := by
  rw [storedStatus_eq]
  split_ifs with h <;> simp [h]

/-- No push commits, and none changes a record that is committed. -/
lemma committed_push (req : PushTransactionRequest) :
    storedStatus ((TxnRequest.push req).apply s).eng id = some .committed ↔
      storedStatus s.eng id = some .committed := by
  rw [storedStatus_some, storedStatus_some]
  refine and_congr_right fun _ => ⟨?_, ?_⟩
  · rintro ⟨r, hr, hst⟩
    rcases processPushTransaction_effect req.pusheeKey req.latestTimestamp req.pushType req.txn s
      with he | ⟨txn, changeType, -, hne, he⟩
    · rw [TxnRequest.apply, pushTransaction, he] at hr
      exact ⟨r, hr, hst⟩
    · rw [TxnRequest.apply, pushTransaction, he] at hr
      rcases mvccPutTxn_effect s txn changeType false with he | ⟨stored, r', -, hn, he⟩
      · exact ⟨r, he ▸ hr, hst⟩
      · rw [he, recAt_put_txn] at hr
        split_ifs at hr
        · cases hr
          rcases nextTxn_status hn with h | h
          · rw [h] at hst
            cases hst
          · exact absurd (h ▸ hst) hne
        · exact ⟨r, hr, hst⟩
  · rintro ⟨r, hr, hst⟩
    exact ⟨r, apply_keeps (q := .push req) (fun h => h) hr (by simp [hst]), hst⟩

lemma committed_pushes (l : List PushTransactionRequest) :
    storedStatus (applyAll s (l.map .push)).eng id = some .committed ↔
      storedStatus s.eng id = some .committed := by
  induction l generalizing s with
  | nil => rfl
  | cons req l ih => exact ih.trans (committed_push req)

/-- **An end commits a pending record**, and is refused by every other one. -/
theorem endTransaction_commit (txn : Transaction) (s : St) :
    (storedStatus s.eng txn.id = some .pending ∧
      ∃ s', Ancestor.endTransaction txn true s = .ok () s' ∧
        storedStatus s'.eng txn.id = some .committed) ∨
    (storedStatus s.eng txn.id ≠ some .pending ∧
      ∃ e, Ancestor.endTransaction txn true s = .error e s) := by
  cases hg : mvccGetTxn s.eng txn.id with
  | error e =>
    refine Or.inr ⟨by simp [storedStatus, hg], e, ?_⟩
    exact mvccPutTxn_lookup_error { txn with status := .committed } false (by simp) hg
  | ok o =>
    have hlook : Looked s txn.id .endTxn o := by simpa [Looked] using hg
    have hrun := mvccPutTxn_run { txn with status := .committed } .endTxn false hlook
    cases o with
    | none =>
      refine Or.inr ⟨by simp [storedStatus, hg], ?_⟩
      exact ⟨_, hrun⟩
    | some r =>
      have hstored : storedStatus s.eng txn.id = some r.status := by simp [storedStatus, hg]
      by_cases hp : r.status = .pending
      · rw [nextTxn_end hp] at hrun
        obtain ⟨s', hs', he⟩ := hrun
        refine Or.inl ⟨hp ▸ hstored, s', hs', ?_⟩
        obtain ⟨hid, -⟩ := storedStatus_some.mp hstored
        have hrec := recAt_put_txn s.eng txn.id txn.id { r with
          timestamp := max r.timestamp txn.timestamp, status := .committed }
        rw [if_pos rfl] at hrec
        exact storedStatus_some.mpr ⟨hid, _, he ▸ hrec, rfl⟩
      · obtain ⟨e, hne⟩ := nextTxn_decided { txn with status := .committed } .endTxn hp
        rw [hne] at hrun
        exact Or.inr ⟨by rw [hstored]; simpa using hp, e, hrun⟩

end Record

/-! ### The outcome -/

section Outcome

variable (env : ℕ → Attempt) {id : Key} {c₀ : Prop}

/-- Between two attempts the record is committed if it was so at first or if the client has
missed the reply. -/
def Between (id : Key) (c₀ : Prop) (w : World) : Prop :=
  storedStatus w.st.eng id = some .committed ↔ c₀ ∨ CommitUnheard w

/-- After the attempt that succeeds. -/
def Heard (id : Key) (c₀ : Prop) (w : World) : Prop :=
  storedStatus w.st.eng id = some .committed ∧ ¬ (c₀ ∨ CommitUnheard w)

lemma commitUnheard_after {w : World} {st : St} : CommitUnheard (w.after env id st) ↔
    CommitUnheard w ∨
      storedStatus (w.pushed env).eng id = some .pending ∧ (w.next env).fate = .replyLost := by
  simp [CommitUnheard, World.after, eq_comm]

lemma Between.pushed {w : World} (h : Between id c₀ w) :
    storedStatus (w.pushed env).eng id = some .committed ↔ c₀ ∨ CommitUnheard w :=
  (committed_pushes _).trans h

/-- One attempt. -/
lemma keeps_call (txn : Transaction) (node : NodeID) (rd : RangeDescriptor) :
    Keeps (Between txn.id c₀) (Heard txn.id c₀)
      (nodeEndTransaction (World.sender env) txn true node rd) := by
  intro w hw
  have hpushed := hw.pushed env
  -- an attempt that leaves the store as the pushes have left it
  have hsame : (storedStatus (w.pushed env).eng txn.id ≠ some .pending ∨
      (w.next env).fate ≠ .replyLost) →
      Between txn.id c₀ (w.after env txn.id (w.pushed env)) := fun hor => by
    rw [Between, commitUnheard_after]
    refine hpushed.trans ⟨fun h => h.imp_right Or.inl, fun h => ?_⟩
    rcases h with h | h | ⟨h, h'⟩
    · exact Or.inl h
    · exact Or.inr h
    · exact (hor.elim (· h) (· h')).elim
  unfold nodeEndTransaction World.sender
  cases hf : (w.next env).fate with
  | notApplied e =>
    cases e with
    | none => exact hsame (Or.inr (by simp [hf]))
    | some e =>
      obtain ⟨e', he'⟩ := runWithResult_error e (w.after env txn.id (w.pushed env))
      simp only [he']
      exact hsame (Or.inr (by simp [hf]))
  | delivered =>
    rcases endTransaction_commit txn (w.pushed env) with ⟨hp, s', hs', hc⟩ | ⟨hp, e, he⟩
    · simp only [hs']
      refine ⟨hc, fun h => ?_⟩
      rw [commitUnheard_after, hf] at h
      have : storedStatus (w.pushed env).eng txn.id = some .committed := by
        rw [hpushed]
        simpa using h
      rw [hp] at this
      cases this
    · obtain ⟨e', he'⟩ := runWithResult_error e (w.after env txn.id (w.pushed env))
      simp only [he, he']
      exact hsame (Or.inl hp)
  | replyLost =>
    rcases endTransaction_commit txn (w.pushed env) with ⟨hp, s', hs', hc⟩ | ⟨hp, e, he⟩
    · simp only [stateAfter, hs']
      show Between txn.id c₀ (w.after env txn.id s')
      rw [Between, commitUnheard_after]
      exact ⟨fun _ => Or.inr (Or.inr ⟨hp, hf⟩), fun _ => hc⟩
    · simp only [stateAfter, he]
      exact hsame (Or.inl hp)

end Outcome

/-- **When the client and the record agree.** After `EndTransaction(true)` the client has an
error exactly when the record is not committed, if and only if the record was not committed
before, and no attempt that met it pending has lost its reply. -/
theorem commit_agrees_iff (env : ℕ → Attempt) (timestamp : Except Error Timestamp)
    (txn : Transaction) (dirty : Bool) (st : St) :
    Agrees txn.id (commit env timestamp txn dirty st) ↔
      storedStatus st.eng txn.id ≠ some .committed ∧
        ¬ CommitUnheard (commit env timestamp txn dirty st).2 := by
  obtain ⟨c₀, hc₀⟩ : ∃ c₀, c₀ ↔ storedStatus st.eng txn.id = some .committed := ⟨_, Iff.rfl⟩
  have h0 : Between txn.id c₀ { st } := by simp [Between, hc₀, CommitUnheard]
  have hkeep : ∀ txn' : Transaction, txn'.id = txn.id → Keeps (Between txn.id c₀) (Heard txn.id c₀)
      (doNodeRequest (World.base env) txn.id
        (nodeEndTransaction (World.sender env) txn' true)) := by
    intro txn' hid
    refine keeps_doNodeRequest (fun w hw => ?_) (fun w hw => hw) (fun _ w hw => ?_) (fun w hw => hw)
      fun node rd => hid ▸ keeps_call env txn' node rd
    · simp only [World.base]
      cases (w.next env).lookup <;> exact hw
    · simp only [World.base]
      cases (w.next env).conn <;> exact hw
  have hout : match (commit env timestamp txn dirty st).1.err with
      | none => Heard txn.id c₀ (commit env timestamp txn dirty st).2
      | some _ => Between txn.id c₀ (commit env timestamp txn dirty st).2 := by
    cases timestamp with
    | error e => exact h0
    | ok ts =>
      simp only [commit, endTransaction]
      cases hrun : doNodeRequest (World.base env) txn.id (nodeEndTransaction (World.sender env)
        { txn with timestamp := ts } true) { st } with
      | ok rd w => exact (hkeep { txn with timestamp := ts } rfl).of_ok h0 hrun
      | error e w => exact (hkeep { txn with timestamp := ts } rfl).of_error h0 hrun
  rw [Agrees, ← not_or, ← hc₀]
  cases herr : (commit env timestamp txn dirty st).1.err with
  | none =>
    rw [herr] at hout
    simpa [hout.1] using hout.2
  | some e =>
    rw [herr] at hout
    have hiff : storedStatus (commit env timestamp txn dirty st).2.st.eng txn.id =
        some .committed ↔ _ := hout
    simp [hiff]

/-- The reply to the end is lost. The second attempt then finds the record committed and is
refused; and when every reply is lost, the client gives up and would run the transaction
again. -/
theorem commit_reported_failed :
    let txn : Transaction := { id := [1, 65], timestamp := ⟨10, 0⟩ }
    let st : St := stateAfter (beginTransaction txn) {}
    let once := commit (fun n => { fate := if n = 0 then .replyLost else .delivered })
      (.ok ⟨20, 0⟩) txn true st
    let always := commit (fun _ => { fate := .replyLost }) (.ok ⟨20, 0⟩) txn true st
    (once.1.err.map (·.cause) = some (.node (.transactionStatus
      { txn with timestamp := ⟨20, 0⟩, status := .committed, lastHeartbeat := 10 }
      "Transaction had COMMITTED" false)) ∧
      storedStatus once.2.st.eng txn.id = some .committed) ∧
    (always.1.err.map (·.cause) = some (.needRetry none) ∧
      storedStatus always.2.st.eng txn.id = some .committed) := by
  decide +kernel

end Ancestor.Client
