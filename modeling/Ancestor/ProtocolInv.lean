import Ancestor.Footprint
import Ancestor.Protocol

/-!
Invariants of the protocol that do not speak of values: where the timestamps of intents,
versions, records and resolutions stand to one another.

They hold along every run in which no record is pushed past the timestamp its transaction
has drawn for the commit before the end request is applied.
-/

namespace Ancestor.Protocol

open M Versions Hoare

/-! ### Keys -/

lemma ne_nil_of_isUserKey {k : Key} (h : isUserKey k) : k ≠ [] := by
  rintro rfl; simp [isUserKey, userPrefix] at h

lemma ne_nil_of_isTxnID {id : Key} (h : isTxnID id) : id ≠ [] := by
  rintro rfl; simp [isTxnID, txnPrefix] at h

lemma userKey_ne_txnID {k id : Key} (hk : isUserKey k) (hid : isTxnID id) : k ≠ id := by
  rintro rfl
  simp only [isUserKey, isTxnID, decide_eq_true_eq] at hk hid
  rw [hk] at hid
  simp [userPrefix, txnPrefix] at hid

/-! ### The invariant -/

/-- The timestamp drawn for the end request. -/
def Phase.drawn : Phase → Option Timestamp
  | .ending _ t => some t
  | .ended _ t => some t
  | _ => none

/-- A timestamp that has passed and at which no transaction has started. -/
def Quiet (s : Sys) (t : Timestamp) : Prop :=
  t ≤ s.clock ∧ ∀ id c, s.clients.get id = some c → c.txn.timestamp ≠ t

structure ClientOk (s : Sys) (id : Key) (c : Client) : Prop where
  id_eq : c.txn.id = id
  isTxn : isTxnID id
  pending : c.txn.status = .pending
  nonneg : c.txn.timestamp.Nonneg
  le_clock : c.txn.timestamp ≤ s.clock
  record : c.begun → ∃ r, recAt s.st.eng id = some r
  drawn : ∀ t, c.phase.drawn = some t →
    c.begun ∧ t.Nonneg ∧ c.txn.timestamp < t ∧ Quiet s t
  committed : ∀ t, c.phase = .ended true t →
    ∃ r, recAt s.st.eng id = some r ∧ r.status = .committed ∧ r.timestamp = t

/-- A record belongs to a client that has begun; once committed it bears the timestamp that
the client drew. -/
def RecordOk (s : Sys) (id : Key) (r : Transaction) : Prop :=
  ∃ c, s.clients.get id = some c ∧ c.begun ∧ r.id = id ∧ c.txn.timestamp ≤ r.timestamp ∧
    r.timestamp.Nonneg ∧ (r.status = .committed → c.phase = .ended true r.timestamp)

/-- A record that was handed out is behind the stored one, or is a decided one. -/
def HandedOk (s : Sys) (t : Transaction) : Prop :=
  isTxnID t.id ∧ t.timestamp.Nonneg ∧ ∃ r, recAt s.st.eng t.id = some r ∧
    (t.status = .pending → t.timestamp ≤ r.timestamp) ∧
    (t.status ≠ .pending → r.status = t.status) ∧
    (t.status = .committed → r.timestamp = t.timestamp)

/-- The engine is laid out in cells and records, user keys apart from transaction IDs. -/
structure Laid (eng : Engine) : Prop where
  ok : EngineOk eng
  dataKey : ∀ k, isUserKey k → DataKey eng k

/-- Clients, records and what has been handed out. -/
structure Told (s : Sys) : Prop where
  clients : ∀ id c, s.clients.get id = some c → ClientOk s id c
  records : ∀ id r, isTxnID id → recAt s.st.eng id = some r → RecordOk s id r
  handed : ∀ t ∈ s.handed, HandedOk s t

/-- What does not depend on how an engine clears. -/
structure Base (s : Sys) : Prop extends Told s where
  laid : Laid s.st.eng

/-! ### What a step can do -/

/-- The effects of the steps, in terms of clients, records and cells. -/
inductive Effect [Backend] (s : Sys) : Act → Sys → Prop
  | idle (a : Act) : Effect s a s
  | start (id : Key) (priority : Int32) (ts : Timestamp) (hf : s.Fresh ts) (hid : isTxnID id)
    (hnew : s.clients.get id = none) :
    Effect s (.start id priority ts) ({ s with clock := ts }.setClient id
      { txn := { id, priority, timestamp := ts, lastHeartbeat := ts.wallTime } })
  | beginTxn (id : Key) (c : Client) (st : St) (hc : s.clients.get id = some c)
    (hphase : c.phase = .running) (hb : c.begun = false)
    (hst : st.eng = s.st.eng.put (newMVCCKey id)
      (.txn { c.txn with lastHeartbeat := c.txn.timestamp.wallTime })) :
    Effect s (.beginTxn id) ({ s with st }.setClient id { c with begun := true })
  | get (id key : Key) (c : Client) (r : Option Value) (hc : s.clients.get id = some c)
    (hphase : c.phase = .running) (hk : isUserKey key)
    (hr : (cell s.st.eng key).Reads id c.txn.timestamp r) :
    Effect s (.get id key) (s.setClient id { c with reads := ⟨key, (r.getD {}).bytes,
      (metaAt s.st.eng key).any fun m => decide (m.transactionID = id)⟩ :: c.reads })
  | put (id key : Key) (v : Value) (c : Client) (c' : Cell) (st : St)
    (hc : s.clients.get id = some c) (hphase : c.phase = .running) (hb : c.begun)
    (hk : isUserKey key) (hput : (cell s.st.eng key).put (c.putRequest key v) = .ok c')
    (hu : Updates s.st.eng st.eng key c') :
    Effect s (.put id key v) ({ s with st }.setClient id
      { c with writes := if s.records key v then (key, v) :: c.writes else c.writes })
  | fail (a : Act) (id : Key) (c : Client) (hc : s.clients.get id = some c)
    (hphase : c.phase = .running ∨ ∃ b t, c.phase = .ending b t) :
    Effect s a (s.setClient id { c with phase := .failed })
  | handOut (e : WriteIntentError) (latest : Timestamp) (r : Transaction)
    (hr : recAt s.st.eng e.intent.txn.id = some r) (hid : isTxnID e.intent.txn.id) :
    Effect s (.push e latest) { s with handed := r :: s.handed }
  | push (e : WriteIntentError) (latest : Timestamp) (r r' : Transaction) (st : St)
    (hid : isTxnID e.intent.txn.id) (hr : recAt s.st.eng e.intent.txn.id = some r)
    (hp : r.status = .pending) (hr' : Pushed r r')
    (hst : st.eng = s.st.eng.put (newMVCCKey e.intent.txn.id) (.txn r')) :
    Effect s (.push e latest) { s with st, handed := r' :: s.handed }
  | resolve (key : Key) (txn : Transaction) (m : MVCCMetadata) (c' : Cell) (st : St)
    (hin : txn ∈ s.handed) (hk : isUserKey key) (hm : metaAt s.st.eng key = some m)
    (hid : m.transactionID = txn.id) (hres : (cell s.st.eng key).Resolved m txn c')
    (hu : Updates s.st.eng st.eng key c') :
    Effect s (.resolve key txn) { s with st }
  | draw (a : Act) (id : Key) (c : Client) (commit : Bool) (ts : Timestamp)
    (hc : s.clients.get id = some c) (hf : s.Fresh ts)
    (hphase : c.phase = .running ∨ c.phase = .failed) (hb : c.begun) :
    Effect s a ({ s with clock := ts }.setClient id { c with phase := .ending commit ts })
  | endTxn (id : Key) (c : Client) (commit : Bool) (ts : Timestamp) (r : Transaction) (st : St)
    (hc : s.clients.get id = some c) (hphase : c.phase = .ending commit ts)
    (hr : recAt s.st.eng id = some r) (hp : r.status = .pending)
    (hst : st.eng = s.st.eng.put (newMVCCKey id) (.txn
      { r with
        timestamp := max r.timestamp ts
        status := if commit then .committed else .aborted })) :
    Effect s (.endTxn id) ({ s with
      st
      handed := c.endTxn commit ts :: s.handed
      commits := if commit then s.commits ++ [id] else s.commits }.setClient id
        { c with phase := .ended commit ts })
  | heartbeat (id : Key) (wallTime : Int64) (r : Transaction) (st : St) (hid : isTxnID id)
    (hr : recAt s.st.eng id = some r)
    (hst : st.eng = s.st.eng.put (newMVCCKey id) (.txn { r with lastHeartbeat := wallTime })) :
    Effect s (.heartbeat id wallTime) { s with st }

/-- The records of the transactions are what they were. -/
def SameRecords (st st' : St) : Prop := ∀ id, isTxnID id → recAt st'.eng id = recAt st.eng id

/-- The effects of the steps on clients and records, whatever they do to the cells. -/
inductive Move (s : Sys) : Act → Sys → Prop
  | keep (a : Act) (st : St) (hst : SameRecords s.st st) : Move s a { s with st }
  | start (id : Key) (priority : Int32) (ts : Timestamp) (hf : s.Fresh ts) (hid : isTxnID id)
    (hnew : s.clients.get id = none) :
    Move s (.start id priority ts) ({ s with clock := ts }.setClient id
      { txn := { id, priority, timestamp := ts, lastHeartbeat := ts.wallTime } })
  | beginTxn (id : Key) (c : Client) (st : St) (hc : s.clients.get id = some c)
    (hphase : c.phase = .running) (hb : c.begun = false)
    (hst : ∀ i, recAt st.eng i = if i = id then
      some { c.txn with lastHeartbeat := c.txn.timestamp.wallTime } else recAt s.st.eng i) :
    Move s (.beginTxn id) ({ s with st }.setClient id { c with begun := true })
  | read (id key : Key) (c : Client) (x : ReadLog) (hc : s.clients.get id = some c) :
    Move s (.get id key) (s.setClient id { c with reads := x :: c.reads })
  | write (id key : Key) (v : Value) (c : Client) (st : St) (hc : s.clients.get id = some c)
    (hphase : c.phase = .running) (hb : c.begun) (hst : SameRecords s.st st) :
    Move s (.put id key v) ({ s with st }.setClient id
      { c with writes := if s.records key v then (key, v) :: c.writes else c.writes })
  | fail (a : Act) (id : Key) (c : Client) (st : St) (hc : s.clients.get id = some c)
    (hphase : c.phase = .running ∨ ∃ b t, c.phase = .ending b t) (hst : SameRecords s.st st) :
    Move s a ({ s with st }.setClient id { c with phase := .failed })
  | handOut (a : Act) (id : Key) (r : Transaction) (hr : recAt s.st.eng id = some r)
    (hid : isTxnID id) : Move s a { s with handed := r :: s.handed }
  | push (a : Act) (id : Key) (r r' : Transaction) (st : St) (hid : isTxnID id)
    (hr : recAt s.st.eng id = some r) (hp : r.status = .pending) (hr' : Pushed r r')
    (hst : ∀ i, recAt st.eng i = if i = id then some r' else recAt s.st.eng i) :
    Move s a { s with st, handed := r' :: s.handed }
  | draw (a : Act) (id : Key) (c : Client) (commit : Bool) (ts : Timestamp)
    (hc : s.clients.get id = some c) (hf : s.Fresh ts)
    (hphase : c.phase = .running ∨ c.phase = .failed) (hb : c.begun) :
    Move s a ({ s with clock := ts }.setClient id { c with phase := .ending commit ts })
  | endTxn (id : Key) (c : Client) (commit : Bool) (ts : Timestamp) (r : Transaction) (st : St)
    (hc : s.clients.get id = some c) (hphase : c.phase = .ending commit ts)
    (hr : recAt s.st.eng id = some r) (hp : r.status = .pending)
    (hst : ∀ i, recAt st.eng i = if i = id then some
      { r with
        timestamp := max r.timestamp ts
        status := if commit then .committed else .aborted } else recAt s.st.eng i) :
    Move s (.endTxn id) ({ s with
      st
      handed := c.endTxn commit ts :: s.handed
      commits := if commit then s.commits ++ [id] else s.commits }.setClient id
        { c with phase := .ended commit ts })
  | heartbeat (a : Act) (id : Key) (wallTime : Int64) (r : Transaction) (st : St)
    (hid : isTxnID id) (hr : recAt s.st.eng id = some r)
    (hst : ∀ i, recAt st.eng i = if i = id then some { r with lastHeartbeat := wallTime }
      else recAt s.st.eng i) : Move s a { s with st }

section StepEffect

variable {s s' : Sys}

lemma Told.record_id (hs : Told s) {id : Key} (hid : isTxnID id) (r : Transaction)
    (hr : recAt s.st.eng id = some r) : r.id = id := by
  obtain ⟨c, -, -, h, -⟩ := hs.records id r hid hr
  exact h

variable [Backend]

lemma get_effect (hs : Base s) {id key : Key} {c : Client} (hc : s.clients.get id = some c)
    (hphase : c.phase = .running) (hk : isUserKey key) :
    Effect s (.get id key) (s.get id c key) := by
  have hcl := hs.clients id c hc
  unfold Sys.get
  cases hg : Ancestor.get s.st.eng { key, timestamp := c.txn.timestamp, txn := c.txn } with
  | error e => exact .idle _
  | ok v =>
    simp only [Ancestor.get, bind, Except.bind] at hg
    cases hi : getInternal s.st.eng key c.txn.timestamp c.txn with
    | error e => simp [hi] at hg
    | ok r =>
      simp only [hi, pure, Except.pure, Except.ok.injEq] at hg
      have hreads := getInternal_reads hs.laid.ok (hs.laid.dataKey key hk)
        (ne_nil_of_isUserKey hk) hcl.nonneg hi
      rw [hcl.id_eq] at hreads
      exact hg ▸ .get id key c r hc hphase hk hreads

lemma put_effect (hs : Base s) {id key : Key} {c : Client} (v : Value)
    (hc : s.clients.get id = some c) (hphase : c.phase = .running) (hb : c.begun)
    (hk : isUserKey key) : Effect s (.put id key v) (s.put id c key v) := by
  have hcl := hs.clients id c hc
  have hrun := put_run (c.putRequest key v) hs.laid.ok (hs.laid.dataKey key hk)
    (ne_nil_of_isUserKey hk) hcl.nonneg
  unfold Sys.put
  cases hput : (cell s.st.eng key).put (c.putRequest key v) with
  | error e =>
    rw [show (c.putRequest key v).key = key from rfl, hput] at hrun
    simp only [hrun]
    cases e
    case writeTooOld => exact .fail _ id c hc (Or.inl hphase)
    all_goals exact .idle _
  | ok c' =>
    rw [show (c.putRequest key v).key = key from rfl, hput] at hrun
    obtain ⟨st, hst, hu⟩ := hrun
    simp only [hst]
    exact .put id key v c c' st hc hphase hb hk hput hu

lemma begin_effect (hs : Told s) {id : Key} {c : Client} (hc : s.clients.get id = some c)
    (hphase : c.phase = .running) (hb : c.begun = false) :
    ∃ st, beginTransaction c.txn s.st = .ok () st ∧
      Effect s (.beginTxn id) ({ s with st }.setClient id { c with begun := true }) := by
  have hcl := hs.clients id c hc
  have hrun := mvccPutTxn_run c.txn .beginTxn true
    (show Looked s.st c.txn.id .beginTxn none by simp [Looked])
  rw [nextTxn_begin hcl.pending] at hrun
  obtain ⟨st, hst, he⟩ := hrun
  exact ⟨st, hst, .beginTxn id c st hc hphase hb (by simp only [he, hcl.id_eq])⟩

lemma push_effect (hs : Told s) (e : WriteIntentError) (latest : Timestamp) {c : Client}
    (hc : s.clients.get e.pusherTxn.id = some c) (hts : e.pusherTxn.timestamp = c.txn.timestamp)
    (hid : isTxnID e.intent.txn.id) : Effect s (.push e latest) (s.push e latest) := by
  have hcl := hs.clients _ c hc
  rcases processPushTransaction_run (ne_nil_of_isTxnID hid) latest e.pushType e.pusherTxn
      (hts ▸ hcl.nonneg) (hs.record_id hid) with
    ⟨err, h⟩ | ⟨r, hr, h⟩ | ⟨r, r', st, hr, hp, hr', h, hst⟩
  · simp only [Sys.push, pushTransaction, h]
    exact .idle _
  · simp only [Sys.push, pushTransaction, h]
    exact .handOut e latest r hr hid
  · simp only [Sys.push, pushTransaction, h]
    exact .push e latest r r' st hid hr hp hr' hst

lemma end_effect (hs : Told s) {id : Key} {c : Client} {commit : Bool} {ts : Timestamp}
    (hc : s.clients.get id = some c) (hphase : c.phase = .ending commit ts) :
    Effect s (.endTxn id) (s.endTxn id c commit ts) := by
  have hcl := hs.clients id c hc
  obtain ⟨r, hr⟩ := hcl.record (hcl.drawn ts (by rw [hphase]; rfl)).1
  have hid := hcl.id_eq
  have hlook : Looked s.st (c.endTxn commit ts).id .endTxn (some r) := by
    refine looked_of_recAt ?_ ?_ (by simp)
    · rw [show (c.endTxn commit ts).id = c.txn.id from rfl, hid]
      exact ne_nil_of_isTxnID hcl.isTxn
    · rw [show (c.endTxn commit ts).id = c.txn.id from rfl, hid, hr]
  have hrun := mvccPutTxn_run { c.endTxn commit ts with
    status := if commit then .committed else .aborted } .endTxn false hlook
  by_cases hp : r.status = .pending
  · rw [nextTxn_end hp] at hrun
    obtain ⟨st, hst, he⟩ := hrun
    have hend : endTransaction (c.endTxn commit ts) commit s.st = .ok () st := hst
    simp only [Sys.endTxn, hend]
    refine .endTxn id c commit ts r st hc hphase hr hp ?_
    rw [he]
    simp only [Client.endTxn, hid]
  · obtain ⟨e, hne⟩ := nextTxn_decided
      { c.endTxn commit ts with status := if commit then .committed else .aborted } .endTxn hp
    rw [hne] at hrun
    have hend : endTransaction (c.endTxn commit ts) commit s.st = .error e s.st := hrun
    simp only [Sys.endTxn, hend]
    exact .fail _ id c hc (Or.inr ⟨commit, ts, hphase⟩)

lemma heartbeat_effect (hs : Told s) {id : Key} {c : Client} (wallTime : Int64)
    (hc : s.clients.get id = some c) (hb : c.begun) :
    let st := stateAfter (heartbeatTransaction { c.txn with lastHeartbeat := wallTime }) s.st
    Effect s (.heartbeat id wallTime) { s with st } := by
  intro st
  have hcl := hs.clients id c hc
  obtain ⟨r, hr⟩ := hcl.record hb
  obtain ⟨c', hc', -, -, hle, -⟩ := hs.records id r hcl.isTxn hr
  rw [hc, Option.some.injEq] at hc'
  subst hc'
  have hst : st = _ := heartbeat_state _ s.st
  have hrun := mvccPutTxn_run { c.txn with lastHeartbeat := wallTime } .heartbeat false
    (hcl.id_eq.symm ▸ looked_of_recAt (ne_nil_of_isTxnID hcl.isTxn) hr (by simp))
  by_cases hp : r.status = .pending
  · rcases nextTxn_heartbeat { c.txn with lastHeartbeat := wallTime } hp hle with hn | hn
    · rw [hn] at hrun
      rw [hst, stateAfter, hrun]
      exact .idle _
    · rw [hn] at hrun
      obtain ⟨st', hst', he⟩ := hrun
      rw [hst, stateAfter, hst']
      exact .heartbeat id wallTime r st' hcl.isTxn hr (by rw [he]; simp only [hcl.id_eq])
  · obtain ⟨e, hne⟩ := nextTxn_decided { c.txn with lastHeartbeat := wallTime } .heartbeat hp
    rw [hne] at hrun
    rw [hst, stateAfter, hrun]
    exact .idle _

/-- A resolution that does not panic. -/
lemma resolve_effect (hs : Base s) {key : Key} {txn : Transaction} {st : St}
    (hin : txn ∈ s.handed) (hk : isUserKey key)
    (hkept : Backend.Copies ∨ NoUncover s (.resolve key txn))
    (h : mvccResolveWriteIntent [⟨key, txn⟩] s.st = .ok () st) :
    Effect s (.resolve key txn) { s with st } := by
  obtain ⟨-, hnn, -⟩ := hs.handed txn hin
  have hd := hs.laid.dataKey key hk
  have hne := ne_nil_of_isUserKey hk
  by_cases hm : ∃ m, metaAt s.st.eng key = some m ∧ m.transactionID = txn.id
  · obtain ⟨m, hm, hid⟩ := hm
    have hkept' : Backend.Copies ∨
        (txn.status = .aborted → ∀ u < m.timestamp, verAt s.st.eng key u = none) :=
      hkept.imp_right fun h hst => h (key, txn.id) (by simp [Act.aborts, hst]) m hm hid
    rcases mvccResolveIntent_run (s := s.st) (i := ⟨key, txn⟩) hs.laid.ok hd hne hnn hm hid
        hkept' with
      ⟨st', c', hst', hres, hu⟩ | ⟨st', hst', -⟩
    · rw [mvccResolveWriteIntent_cons [] hst'] at h
      cases h
      exact .resolve key txn m c' _ hin hk hm hid hres hu
    · simp only [mvccResolveWriteIntent, hst'] at h
      cases h
  · have hskip := mvccResolveIntent_skip (s := s.st) (i := ⟨key, txn⟩) hd hne
      fun m hm' hid => hm ⟨m, hm', hid⟩
    rw [mvccResolveWriteIntent_cons [] hskip] at h
    cases h
    exact .idle _

/-- **Every step has one of the effects.** -/
theorem step_effect (hs : Base s) {a : Act} (hkept : Backend.Copies ∨ NoUncover s a)
    (h : step s a = some s') : Effect s a s' := by
  cases a with
  | start id priority ts =>
    simp only [step] at h
    split_ifs at h with hg
    cases h
    exact .start id priority ts hg.1 hg.2.1 hg.2.2
  | resolve key txn =>
    simp only [step] at h
    split_ifs at h with hg
    cases hres : mvccResolveWriteIntent [⟨key, txn⟩] s.st with
    | error e st => simp [hres] at h
    | ok u st =>
      rw [hres] at h
      cases h
      exact resolve_effect hs hg.1 hg.2 hkept hres
  | push e latest =>
    simp only [step, bind, Option.bind_eq_some_iff] at h
    obtain ⟨c, hc, h⟩ := h
    split_ifs at h with hg
    cases h
    exact push_effect hs.toTold e latest hc hg.1 hg.2
  | beginTxn id =>
    simp only [step, bind, Option.bind_eq_some_iff] at h
    obtain ⟨c, hc, h⟩ := h
    split_ifs at h with hg
    obtain ⟨st, hst, he⟩ := begin_effect hs.toTold hc hg.1 hg.2
    rw [hst] at h
    cases h
    exact he
  | get id key =>
    simp only [step, bind, Option.bind_eq_some_iff] at h
    obtain ⟨c, hc, h⟩ := h
    split_ifs at h with hg
    cases h
    exact get_effect hs hc hg.1 hg.2
  | put id key v =>
    simp only [step, bind, Option.bind_eq_some_iff] at h
    obtain ⟨c, hc, h⟩ := h
    split_ifs at h with hg
    cases h
    exact put_effect hs v hc hg.1 hg.2.1 hg.2.2
  | commit id ts =>
    simp only [step, bind, Option.bind_eq_some_iff] at h
    obtain ⟨c, hc, h⟩ := h
    split_ifs at h with hg
    cases h
    exact .draw _ id c true ts hc hg.1 (Or.inl hg.2.1) hg.2.2
  | rollback id ts =>
    simp only [step, bind, Option.bind_eq_some_iff] at h
    obtain ⟨c, hc, h⟩ := h
    split_ifs at h with hg
    cases h
    exact .draw _ id c false ts hc hg.1 hg.2.1 hg.2.2
  | endTxn id =>
    simp only [step, bind, Option.bind_eq_some_iff] at h
    obtain ⟨c, hc, h⟩ := h
    split at h
    · rename_i commit ts hphase
      cases h
      exact end_effect hs.toTold hc hphase
    · cases h
  | heartbeat id wallTime =>
    simp only [step, bind, Option.bind_eq_some_iff] at h
    obtain ⟨c, hc, h⟩ := h
    split_ifs at h with hg
    cases h
    exact heartbeat_effect hs.toTold wallTime hc hg

end StepEffect

/-! ### Frames -/

section Frames

variable {eng eng' : Engine} {k key id : Key} {c : Cell}

lemma Laid.put_txn (h : Laid eng) (hid : isTxnID id) (r : Transaction) :
    Laid (eng.put (newMVCCKey id) (.txn r)) where
  ok := h.ok.put_txn id r
  dataKey := fun k hk e he => h.dataKey k hk e (by
    simpa [newMVCCKey_inj, userKey_ne_txnID hk hid] using he)

lemma Laid.updates (h : Laid eng) (hu : Updates eng eng' key c) : Laid eng' where
  ok := hu.ok
  dataKey := fun k hk => by
    by_cases hkey : k = key
    · exact hkey ▸ hu.dataKey
    · exact dataKey_updates hu hkey (h.dataKey k hk)

lemma cell_put_txn (hk : isUserKey k) (hid : isTxnID id) (r : Transaction) :
    cell (eng.put (newMVCCKey id) (.txn r)) k = cell eng k := by
  simp only [cell, Cell.mk.injEq, funext_iff, verAt_put_meta, implies_true, and_true]
  simp [metaAt, newMVCCKey_inj, userKey_ne_txnID hk hid]

lemma recAt_updates (hu : Updates eng eng' key c) (hk : isUserKey key) (hid : isTxnID id) :
    recAt eng' id = recAt eng id := by
  rw [recAt, recAt, (hu.same id (userKey_ne_txnID hk hid).symm).1]

end Frames

/-! ### What a step does to clients and records -/

section StepMove

variable [Backend] {s s' : Sys} {a : Act}

omit [Backend] in
lemma sameRecords_of_only {k : Key} (hk : isUserKey k) {m : M Unit} (h : Only (entryKeys k) m)
    (st : St) : SameRecords st (stateAfter m st) := fun id hid => by
  have hx : newMVCCKey id ∉ entryKeys k := fun hx =>
    userKey_ne_txnID hk hid (entryKeys_inj (metaKey_mem id) hx).symm
  rw [recAt, recAt, h.after st hx]

lemma Effect.move (h : Effect s a s') : Move s a s' := by
  cases h with
  | idle => exact .keep a s.st fun _ _ => rfl
  | start id priority ts hf hid hnew => exact .start id priority ts hf hid hnew
  | beginTxn id c st hc hphase hb hst =>
    exact .beginTxn id c st hc hphase hb fun i => hst ▸ recAt_put_txn _ _ _ _
  | get id key c r hc hphase hk hr => exact .read id key c _ hc
  | put id key v c c' st hc hphase hb hk hput hu =>
    exact .write id key v c st hc hphase hb fun _ hid => recAt_updates hu hk hid
  | fail _ id c hc hphase => exact .fail a id c s.st hc hphase fun _ _ => rfl
  | handOut e latest r hr hid => exact .handOut _ _ r hr hid
  | push e latest r r' st hid hr hp hr' hst =>
    exact .push _ _ r r' st hid hr hp hr' fun i => hst ▸ recAt_put_txn _ _ _ _
  | resolve key txn m c' st hin hk hm hid hres hu =>
    exact .keep _ st fun _ hid => recAt_updates hu hk hid
  | draw _ id c commit ts hc hf hphase hb => exact .draw a id c commit ts hc hf hphase hb
  | endTxn id c commit ts r st hc hphase hr hp hst =>
    exact .endTxn id c commit ts r st hc hphase hr hp fun i => hst ▸ recAt_put_txn _ _ _ _
  | heartbeat id wallTime r st hid hr hst =>
    exact .heartbeat _ id wallTime r st hid hr fun i => hst ▸ recAt_put_txn _ _ _ _

lemma put_move {id key : Key} {c : Client} (v : Value) (hc : s.clients.get id = some c)
    (hphase : c.phase = .running) (hb : c.begun) (hk : isUserKey key) :
    Move s (.put id key v) (s.put id c key v) := by
  have hsame := sameRecords_of_only hk (only_put (c.putRequest key v)) s.st
  unfold Sys.put
  cases hrun : Ancestor.put (c.putRequest key v) s.st with
  | ok u st =>
    rw [stateAfter_ok hrun] at hsame
    exact .write id key v c st hc hphase hb hsame
  | error e st =>
    rw [stateAfter_error hrun] at hsame
    cases e
    case writeTooOld => exact .fail _ id c st hc (.inl hphase) hsame
    all_goals exact .keep _ st hsame

lemma resolve_move {key : Key} {txn : Transaction} {st : St} (hk : isUserKey key)
    (h : mvccResolveWriteIntent [⟨key, txn⟩] s.st = .ok () st) :
    Move s (.resolve key txn) { s with st } := by
  have hsame := sameRecords_of_only hk (only_mvccResolveIntent ⟨key, txn⟩) s.st
  refine .keep _ st ?_
  simp only [mvccResolveWriteIntent] at h
  cases hrun : mvccResolveIntent ⟨key, txn⟩ s.st with
  | ok u st' =>
    rw [hrun] at h
    cases h
    rwa [stateAfter_ok hrun] at hsame
  | error e st' =>
    rw [hrun] at h
    rw [stateAfter_error hrun] at hsame
    cases e
    case panic => cases h
    all_goals
      cases h
      exact hsame

/-- **Every step moves clients and records in one of these ways**, on every engine. -/
theorem step_move (hs : Told s) (h : step s a = some s') : Move s a s' := by
  cases a with
  | start id priority ts =>
    simp only [step] at h
    split_ifs at h with hg
    cases h
    exact .start id priority ts hg.1 hg.2.1 hg.2.2
  | resolve key txn =>
    simp only [step] at h
    split_ifs at h with hg
    cases hres : mvccResolveWriteIntent [⟨key, txn⟩] s.st with
    | error e st => simp [hres] at h
    | ok u st =>
      rw [hres] at h
      cases h
      exact resolve_move hg.2 hres
  | push e latest =>
    simp only [step, bind, Option.bind_eq_some_iff] at h
    obtain ⟨c, hc, h⟩ := h
    split_ifs at h with hg
    cases h
    exact (push_effect hs e latest hc hg.1 hg.2).move
  | beginTxn id =>
    simp only [step, bind, Option.bind_eq_some_iff] at h
    obtain ⟨c, hc, h⟩ := h
    split_ifs at h with hg
    obtain ⟨st, hst, he⟩ := begin_effect hs hc hg.1 hg.2
    rw [hst] at h
    cases h
    exact he.move
  | get id key =>
    simp only [step, bind, Option.bind_eq_some_iff] at h
    obtain ⟨c, hc, h⟩ := h
    split_ifs at h with hg
    cases h
    unfold Sys.get
    split
    · exact .read id key c _ hc
    · exact .keep _ s.st fun _ _ => rfl
  | put id key v =>
    simp only [step, bind, Option.bind_eq_some_iff] at h
    obtain ⟨c, hc, h⟩ := h
    split_ifs at h with hg
    cases h
    exact put_move v hc hg.1 hg.2.1 hg.2.2
  | commit id ts =>
    simp only [step, bind, Option.bind_eq_some_iff] at h
    obtain ⟨c, hc, h⟩ := h
    split_ifs at h with hg
    cases h
    exact .draw _ id c true ts hc hg.1 (Or.inl hg.2.1) hg.2.2
  | rollback id ts =>
    simp only [step, bind, Option.bind_eq_some_iff] at h
    obtain ⟨c, hc, h⟩ := h
    split_ifs at h with hg
    cases h
    exact .draw _ id c false ts hc hg.1 hg.2.1 hg.2.2
  | endTxn id =>
    simp only [step, bind, Option.bind_eq_some_iff] at h
    obtain ⟨c, hc, h⟩ := h
    split at h
    · rename_i commit ts hphase
      cases h
      exact (end_effect hs hc hphase).move
    · cases h
  | heartbeat id wallTime =>
    simp only [step, bind, Option.bind_eq_some_iff] at h
    obtain ⟨c, hc, h⟩ := h
    split_ifs at h with hg
    cases h
    exact (heartbeat_effect hs wallTime hc hg).move

end StepMove

@[simp] lemma setClient_get (s : Sys) (id id' : Key) (c : Client) :
    (s.setClient id c).clients.get id' = if id' = id then some c else s.clients.get id' := by
  simp [Sys.setClient]

/-- A client of the state after: the one that was set, or another one as it was. -/
lemma setClient_cases {s : Sys} {id i : Key} {c x : Client}
    (h : (s.setClient id c).clients.get i = some x) :
    (i = id ∧ x = c) ∨ (i ≠ id ∧ s.clients.get i = some x) := by
  by_cases hi : i = id
  · rw [setClient_get, if_pos hi, Option.some.injEq] at h
    exact .inl ⟨hi, h.symm⟩
  · rw [setClient_get, if_neg hi] at h
    exact .inr ⟨hi, h⟩

/-! ### What stays along a step -/

/-- Clients, starts and decisions stay; clocks and record timestamps only grow. -/
structure Later (s s' : Sys) : Prop where
  clock : s.clock ≤ s'.clock
  old : ∀ id c, s.clients.get id = some c → ∃ c', s'.clients.get id = some c' ∧
    c'.txn = c.txn ∧ (c.begun → c'.begun) ∧ ∀ b t, c.phase = .ended b t → c'.phase = .ended b t
  new : ∀ id c', s'.clients.get id = some c' →
    (∃ c, s.clients.get id = some c ∧ c'.txn = c.txn) ∨ s.clock < c'.txn.timestamp
  record : ∀ id r, isTxnID id → recAt s.st.eng id = some r → ∃ r', recAt s'.st.eng id = some r' ∧
    r.timestamp ≤ r'.timestamp ∧
    (r.status ≠ .pending → r'.status = r.status ∧ r'.timestamp = r.timestamp)

namespace Later

variable {s s' s'' : Sys}

lemma refl (s : Sys) : Later s s :=
  ⟨le_rfl, fun _ c h => ⟨c, h, rfl, id, fun _ _ => id⟩, fun _ c h => Or.inl ⟨c, h, rfl⟩,
    fun _ r _ h => ⟨r, h, le_rfl, fun _ => ⟨rfl, rfl⟩⟩⟩

lemma trans (h : Later s s') (h' : Later s' s'') : Later s s'' where
  clock := h.clock.trans h'.clock
  old := fun id c hc => by
    obtain ⟨c', hc', ht, hb, hp⟩ := h.old id c hc
    obtain ⟨c'', hc'', ht', hb', hp'⟩ := h'.old id c' hc'
    exact ⟨c'', hc'', ht'.trans ht, hb' ∘ hb, fun b t => hp' b t ∘ hp b t⟩
  new := fun id c'' hc'' => by
    rcases h'.new id c'' hc'' with ⟨c', hc', ht'⟩ | hlt
    · rcases h.new id c' hc' with ⟨c, hc, ht⟩ | hlt
      · exact Or.inl ⟨c, hc, ht'.trans ht⟩
      · exact Or.inr (ht' ▸ hlt)
    · exact Or.inr (h.clock.trans_lt hlt)
  record := fun id r hid hr => by
    obtain ⟨r', hr', hle, hd⟩ := h.record id r hid hr
    obtain ⟨r'', hr'', hle', hd'⟩ := h'.record id r' hid hr'
    refine ⟨r'', hr'', hle.trans hle', fun hp => ?_⟩
    obtain ⟨hst, hts⟩ := hd hp
    obtain ⟨hst', hts'⟩ := hd' (hst ▸ hp)
    exact ⟨hst'.trans hst, hts'.trans hts⟩

end Later

section Preserved

variable {s s' : Sys} (hl : Later s s')

include hl

lemma Quiet.later {t : Timestamp} (h : Quiet s t) : Quiet s' t := by
  refine ⟨h.1.trans hl.clock, fun id c' hc' => ?_⟩
  rcases hl.new id c' hc' with ⟨c, hc, ht⟩ | hlt
  · exact ht ▸ h.2 id c hc
  · exact (h.1.trans_lt hlt).ne'

lemma ClientOk.later {id : Key} {c : Client} (h : ClientOk s id c) : ClientOk s' id c where
  id_eq := h.id_eq
  isTxn := h.isTxn
  pending := h.pending
  nonneg := h.nonneg
  le_clock := h.le_clock.trans hl.clock
  record := fun hb => by
    obtain ⟨r, hr⟩ := h.record hb
    obtain ⟨r', hr', -⟩ := hl.record id r h.isTxn hr
    exact ⟨r', hr'⟩
  drawn := fun t ht => by
    obtain ⟨hb, hnn, hlt, hq⟩ := h.drawn t ht
    exact ⟨hb, hnn, hlt, hq.later hl⟩
  committed := fun t ht => by
    obtain ⟨r, hr, hst, hts⟩ := h.committed t ht
    obtain ⟨r', hr', -, hd⟩ := hl.record id r h.isTxn hr
    obtain ⟨hst', hts'⟩ := hd (by simp [hst])
    exact ⟨r', hr', hst'.trans hst, hts'.trans hts⟩

lemma RecordOk.later {id : Key} {r : Transaction} (h : RecordOk s id r) : RecordOk s' id r := by
  obtain ⟨c, hc, hb, hid, hle, hnn, hcom⟩ := h
  obtain ⟨c', hc', ht, hb', hp⟩ := hl.old id c hc
  exact ⟨c', hc', hb' hb, hid, ht ▸ hle, hnn, fun hst => hp _ _ (hcom hst)⟩

lemma HandedOk.later {t : Transaction} (h : HandedOk s t) : HandedOk s' t := by
  obtain ⟨hid, hnn, r, hr, hp, hst, hts⟩ := h
  obtain ⟨r', hr', hle, hd⟩ := hl.record t.id r hid hr
  refine ⟨hid, hnn, r', hr', fun h => (hp h).trans hle, fun h => ?_, fun h => ?_⟩
  · rw [(hd (hst h ▸ h)).1, hst h]
  · have hne : r.status ≠ .pending := by rw [hst (by simp [h]), h]; simp
    rw [(hd hne).2, hts h]

/-- The invariant is kept once it is kept of what the step has changed. -/
lemma Told.of_changed (hs : Told s)
    (hclients : ∀ id c, s'.clients.get id = some c → s.clients.get id = some c ∨ ClientOk s' id c)
    (hrecords : ∀ id r, isTxnID id → recAt s'.st.eng id = some r →
      recAt s.st.eng id = some r ∨ RecordOk s' id r)
    (hhanded : ∀ t ∈ s'.handed, t ∈ s.handed ∨ HandedOk s' t) : Told s' where
  clients := fun i c hc => (hclients i c hc).elim (fun h => (hs.clients i c h).later hl) id
  records := fun i r hid hr =>
    (hrecords i r hid hr).elim (fun h => (hs.records i r hid h).later hl) id
  handed := fun t ht => (hhanded t ht).elim (fun h => (hs.handed t h).later hl) id

end Preserved

/-! ### The invariant along a step -/

section Step

variable {s s' : Sys} {a : Act}

/-- A client is replaced by one with the same transaction that has begun if it had, and that
has not left an end behind. -/
lemma Later.setClient {st : St} {clock : Timestamp} {handed : List Transaction}
    {commits : List Key} {id : Key} {c c' : Client} (hc : s.clients.get id = some c)
    (htxn : c'.txn = c.txn) (hb : c.begun → c'.begun)
    (hp : ∀ b t, c.phase = .ended b t → c'.phase = .ended b t) (hclock : s.clock ≤ clock)
    (hrec : ∀ id r, isTxnID id → recAt s.st.eng id = some r → ∃ r', recAt st.eng id = some r' ∧
      r.timestamp ≤ r'.timestamp ∧
      (r.status ≠ .pending → r'.status = r.status ∧ r'.timestamp = r.timestamp)) :
    Later s (({ s with st, clock, handed, commits } : Sys).setClient id c') where
  clock := hclock
  old := fun i x hx => by
    by_cases hi : i = id
    · rw [hi, hc, Option.some.injEq] at hx
      exact ⟨c', by simp [hi], hx ▸ htxn, hx ▸ hb, hx ▸ hp⟩
    · exact ⟨x, by simpa [hi] using hx, rfl, fun h => h, fun _ _ h => h⟩
  new := fun i x hx => by
    by_cases hi : i = id
    · have hx' : x = c' := by simpa [hi, eq_comm] using hx
      exact Or.inl ⟨c, hi ▸ hc, hx' ▸ htxn⟩
    · exact Or.inl ⟨x, by simpa [hi] using hx, rfl⟩
  record := hrec

/-- One record is stored anew. -/
lemma record_put {st : St} {id : Key} {r' : Transaction}
    (hst : ∀ i, recAt st.eng i = if i = id then some r' else recAt s.st.eng i)
    (h : ∀ r, recAt s.st.eng id = some r → r.timestamp ≤ r'.timestamp ∧
      (r.status ≠ .pending → r'.status = r.status ∧ r'.timestamp = r.timestamp)) :
    ∀ i r, isTxnID i → recAt s.st.eng i = some r → ∃ r', recAt st.eng i = some r' ∧
      r.timestamp ≤ r'.timestamp ∧
      (r.status ≠ .pending → r'.status = r.status ∧ r'.timestamp = r.timestamp) := by
  intro i r _ hr
  rw [hst]
  by_cases hi : i = id
  · exact ⟨r', by rw [if_pos hi], h r (hi ▸ hr)⟩
  · exact ⟨r, by rw [if_neg hi, hr], le_rfl, fun _ => ⟨rfl, rfl⟩⟩

lemma record_same {st : St} (hst : ∀ id, isTxnID id → recAt st.eng id = recAt s.st.eng id) :
    ∀ i r, isTxnID i → recAt s.st.eng i = some r → ∃ r', recAt st.eng i = some r' ∧
      r.timestamp ≤ r'.timestamp ∧
      (r.status ≠ .pending → r'.status = r.status ∧ r'.timestamp = r.timestamp) :=
  fun i r hid hr => ⟨r, (hst i hid).trans hr, le_rfl, fun _ => ⟨rfl, rfl⟩⟩

/-- **Clients, starts and decisions outlive every step.** -/
theorem Move.later (hs : Told s) (h : Move s a s') : Later s s' := by
  cases h with
  | keep _ st hst => exact ⟨le_rfl, (Later.refl s).old, (Later.refl s).new, record_same hst⟩
  | start id priority ts hf hid hnew =>
    refine ⟨hf.1.le, fun i c hc => ?_, fun i c hc => ?_, record_same fun _ _ => rfl⟩
    · have hi : i ≠ id := by rintro rfl; simp [hnew] at hc
      exact ⟨c, by simpa [hi] using hc, rfl, fun h => h, fun _ _ h => h⟩
    · rcases setClient_cases hc with ⟨-, rfl⟩ | ⟨-, hc⟩
      · exact Or.inr hf.1
      · exact Or.inl ⟨c, hc, rfl⟩
  | beginTxn id c st hc hphase hb hst =>
    refine .setClient hc rfl (fun _ => rfl) (fun _ _ h => by simp [hphase] at h) le_rfl
      (record_put hst fun r hr => ?_)
    -- a record would have a client that has begun
    obtain ⟨c', hc', hb', -⟩ := hs.records id r (hs.clients id c hc).isTxn hr
    rw [hc, Option.some.injEq] at hc'
    rw [← hc', hb] at hb'
    cases hb'
  | read id key c x hc =>
    exact .setClient hc rfl (fun h => h) (fun _ _ h => h) le_rfl (record_same fun _ _ => rfl)
  | write id key v c st hc hphase hb hst =>
    exact .setClient hc rfl (fun h => h) (fun _ _ h => h) le_rfl (record_same hst)
  | fail _ id c st hc hphase hst =>
    refine .setClient hc rfl (fun h => h) (fun b t h => ?_) le_rfl (record_same hst)
    rcases hphase with hp | ⟨b', t', hp⟩ <;> simp [hp] at h
  | handOut _ id r hr hid =>
    exact ⟨le_rfl, (Later.refl s).old, (Later.refl s).new, (Later.refl s).record⟩
  | push _ id r r' st hid hr hp hr' hst =>
    refine ⟨le_rfl, (Later.refl s).old, (Later.refl s).new, record_put hst fun r₀ hr₀ => ?_⟩
    rw [hr, Option.some.injEq] at hr₀
    subst hr₀
    refine ⟨?_, fun hne => absurd hp hne⟩
    cases hr' with
    | aborted => exact le_rfl
    | moved t hlt _ => exact hlt.le
  | draw _ id c commit ts hc hf hphase hb =>
    refine .setClient hc rfl (fun h => h) (fun b t h => ?_) hf.1.le (record_same fun _ _ => rfl)
    rcases hphase with hp | hp <;> simp [hp] at h
  | endTxn id c commit ts r st hc hphase hr hp hst =>
    refine .setClient hc rfl (fun h => h) (fun b t h => by simp [hphase] at h) le_rfl
      (record_put hst fun r₀ hr₀ => ?_)
    rw [hr, Option.some.injEq] at hr₀
    subst hr₀
    exact ⟨le_max_left _ _, fun hne => absurd hp hne⟩
  | heartbeat _ id wallTime r st hid hr hst =>
    refine ⟨le_rfl, (Later.refl s).old, (Later.refl s).new, record_put hst fun r₀ hr₀ => ?_⟩
    rw [hr, Option.some.injEq] at hr₀
    subst hr₀
    exact ⟨le_rfl, fun _ => ⟨rfl, rfl⟩⟩

lemma Effect.later [Backend] (hs : Base s) (h : Effect s a s') : Later s s' :=
  h.move.later hs.toTold

lemma ClientOk.congr {id : Key} {c c' : Client} (h : ClientOk s id c) (htxn : c'.txn = c.txn)
    (hb : c'.begun = c.begun) (hp : c'.phase = c.phase) : ClientOk s id c' where
  id_eq := htxn ▸ h.id_eq
  isTxn := h.isTxn
  pending := htxn ▸ h.pending
  nonneg := htxn ▸ h.nonneg
  le_clock := htxn ▸ h.le_clock
  record := hb ▸ h.record
  drawn := fun t ht => by
    rw [hb, htxn]
    exact h.drawn t (hp ▸ ht)
  committed := fun t ht => h.committed t (hp ▸ ht)

lemma ClientOk.fail {id : Key} {c : Client} (h : ClientOk s id c) :
    ClientOk s id { c with phase := .failed } where
  id_eq := h.id_eq
  isTxn := h.isTxn
  pending := h.pending
  nonneg := h.nonneg
  le_clock := h.le_clock
  record := h.record
  drawn := fun t ht => by cases ht
  committed := fun t ht => by cases ht

/-- Only the client that is replaced has changed. -/
lemma changed_client {s₀ : Sys} {id : Key} {c' : Client} (hs₀ : s₀.clients = s.clients)
    (hok : ClientOk (s₀.setClient id c') id c') (i : Key) (x : Client)
    (hx : (s₀.setClient id c').clients.get i = some x) :
    s.clients.get i = some x ∨ ClientOk (s₀.setClient id c') i x := by
  rcases setClient_cases hx with ⟨rfl, rfl⟩ | ⟨-, hx⟩
  · exact Or.inr hok
  · exact Or.inl (hs₀ ▸ hx)

/-- Only the record that is stored has changed. -/
lemma changed_record {id : Key} {r' : Transaction}
    (hst : ∀ i, recAt s'.st.eng i = if i = id then some r' else recAt s.st.eng i)
    (hok : RecordOk s' id r') (i : Key) (r : Transaction) (_ : isTxnID i)
    (hr : recAt s'.st.eng i = some r) : recAt s.st.eng i = some r ∨ RecordOk s' i r := by
  rw [hst] at hr
  split_ifs at hr with hi
  · cases hr
    exact Or.inr (hi ▸ hok)
  · exact Or.inl hr

/-- Only the record that is handed out now is new. -/
lemma changed_handed {t₀ : Transaction} (hok : HandedOk s' t₀) (t : Transaction)
    (ht : t ∈ t₀ :: s.handed) : t ∈ s.handed ∨ HandedOk s' t := by
  rcases List.mem_cons.mp ht with rfl | ht
  · exact Or.inr hok
  · exact Or.inl ht

/-- The stored record may be handed out. -/
lemma handed_record {id : Key} {r : Transaction} (hid : isTxnID id) (hrid : r.id = id)
    (hnn : r.timestamp.Nonneg) (hr : recAt s.st.eng id = some r) : HandedOk s r := by
  subst hrid
  exact ⟨hid, hnn, r, hr, fun _ => le_rfl, fun _ => rfl, fun _ => rfl⟩

lemma RecordOk.pushed {id : Key} {r r' : Transaction} (h : RecordOk s id r)
    (hp : r.status = .pending) (hr' : Pushed r r') : RecordOk s id r' := by
  obtain ⟨c, hc, hb, hrid, hle, hnn, -⟩ := h
  cases hr' with
  | aborted => exact ⟨c, hc, hb, hrid, hle, hnn, fun h => by cases h⟩
  | moved t hlt ht =>
    exact ⟨c, hc, hb, hrid, hle.trans hlt.le, ht, fun h => by simp [hp] at h⟩

/-- **Every step in time keeps what clients and records say of each other.** -/
theorem Told.step (hs : Told s) (hin : InTime s a) (h : Move s a s') : Told s' := by
  have hl := h.later hs
  cases h with
  | keep _ st hst =>
    exact hs.of_changed hl (fun _ _ h => Or.inl h)
      (fun _ _ hid h => Or.inl ((hst _ hid).symm.trans h)) (fun _ h => Or.inl h)
  | start id priority ts hf hid hnew =>
    refine hs.of_changed hl (changed_client rfl ?_) (fun _ _ _ h => Or.inl h)
      (fun _ h => Or.inl h)
    exact ⟨rfl, hid, rfl, hf.2, le_rfl, (by simp), (by simp [Phase.drawn]), (by simp)⟩
  | beginTxn id c st hc hphase hb hst =>
    have hcl := hs.clients id c hc
    have hrec : recAt st.eng id =
        some { c.txn with lastHeartbeat := c.txn.timestamp.wallTime } := by
      rw [hst, if_pos rfl]
    refine hs.of_changed hl (changed_client rfl ?_) (changed_record hst ?_) (fun _ h => Or.inl h)
    · exact ⟨hcl.id_eq, hcl.isTxn, hcl.pending, hcl.nonneg, hcl.le_clock, fun _ => ⟨_, hrec⟩,
        fun t h => by simp [hphase, Phase.drawn] at h, fun t h => by simp [hphase] at h⟩
    · refine ⟨{ c with begun := true }, by simp, rfl, hcl.id_eq, le_rfl, hcl.nonneg, fun h => ?_⟩
      rw [hcl.pending] at h
      cases h
  | read id key c x hc =>
    exact hs.of_changed hl
      (changed_client rfl (((hs.clients id c hc).later hl).congr rfl rfl rfl))
      (fun _ _ _ h => Or.inl h) (fun _ h => Or.inl h)
  | write id key v c st hc hphase hb hst =>
    exact hs.of_changed hl
      (changed_client rfl (((hs.clients id c hc).later hl).congr rfl rfl rfl))
      (fun _ _ hid h => Or.inl ((hst _ hid).symm.trans h)) (fun _ h => Or.inl h)
  | fail _ id c st hc hphase hst =>
    exact hs.of_changed hl (changed_client rfl ((hs.clients id c hc).later hl).fail)
      (fun _ _ hid h => Or.inl ((hst _ hid).symm.trans h)) (fun _ h => Or.inl h)
  | handOut _ id r hr hid =>
    obtain ⟨c, -, -, hrid, -, hnn, -⟩ := hs.records _ r hid hr
    exact hs.of_changed hl (fun _ _ h => Or.inl h) (fun _ _ _ h => Or.inl h)
      (changed_handed (handed_record hid hrid hnn hr))
  | push _ id r r' st hid hr hp hr' hst =>
    have hrec : recAt st.eng id = some r' := by rw [hst, if_pos rfl]
    obtain ⟨c, hc, hb, hrid, hle, hnn, hcom⟩ : RecordOk s id r' :=
      (hs.records _ r hid hr).pushed hp hr'
    exact hs.of_changed hl (fun _ _ h => Or.inl h)
      (changed_record hst ⟨c, hc, hb, hrid, hle, hnn, hcom⟩)
      (changed_handed (handed_record hid hrid hnn hrec))
  | draw _ id c commit ts hc hf hphase hb =>
    have hcl := (hs.clients id c hc).later hl
    refine hs.of_changed hl (changed_client rfl ?_) (fun _ _ _ h => Or.inl h)
      (fun _ h => Or.inl h)
    have hstart := (hs.clients id c hc).le_clock
    refine ⟨hcl.id_eq, hcl.isTxn, hcl.pending, hcl.nonneg, hcl.le_clock, hcl.record,
      fun t ht => ?_, fun t h => by cases h⟩
    cases ht
    refine ⟨hb, hf.2, hstart.trans_lt hf.1, le_rfl, fun i x hx => ?_⟩
    -- every start lies at or below the old clock
    rcases setClient_cases hx with ⟨-, rfl⟩ | ⟨-, hx⟩
    · exact (hstart.trans_lt hf.1).ne
    · exact ((hs.clients i x hx).le_clock.trans_lt hf.1).ne
  | endTxn id c commit ts r st hc hphase hr hp hst =>
    have hcl := hs.clients id c hc
    have hclock := hcl.later hl
    obtain ⟨c', hc', -, hrid, hle, hnn, -⟩ := hs.records id r hcl.isTxn hr
    rw [hc, Option.some.injEq] at hc'
    subst hc'
    obtain ⟨hb, htnn, hlt, hq⟩ := hcl.drawn ts (by rw [hphase]; rfl)
    have hmax : commit = true → max r.timestamp ts = ts := fun hcom => by
      subst hcom
      exact max_eq_right (hin id rfl c hc r hr hp ts (by rw [hphase]; rfl))
    have hrec : recAt st.eng id = some { r with
        timestamp := max r.timestamp ts
        status := if commit then .committed else .aborted } := by
      rw [hst, if_pos rfl]
    refine hs.of_changed hl (changed_client rfl ?_) (changed_record hst ?_) (changed_handed ?_)
    · refine ⟨hcl.id_eq, hcl.isTxn, hcl.pending, hcl.nonneg, hclock.le_clock,
        fun _ => ⟨_, hrec⟩, fun t ht => ?_, fun t ht => ?_⟩
      · cases ht
        exact ⟨hb, htnn, hlt, hq.later hl⟩
      · simp only [Phase.ended.injEq] at ht
        obtain ⟨hcom, rfl⟩ := ht
        exact ⟨_, hrec, by simp [hcom], hmax hcom⟩
    · refine ⟨{ c with phase := .ended commit ts }, by simp, hb, hrid, ?_, ?_, fun h => ?_⟩
      · exact hle.trans (le_max_left _ _)
      · rcases max_choice r.timestamp ts with h | h
        · exact h.symm ▸ hnn
        · exact h.symm ▸ htnn
      · have hcom : commit = true := by simpa using h
        simp only [hcom, hmax hcom]
    · have hid : (c.endTxn commit ts).id = id := hcl.id_eq
      refine ⟨hid.symm ▸ hcl.isTxn, htnn, _, (congrArg (recAt st.eng) hid).trans hrec,
        fun h => ?_, fun _ => rfl, fun h => hmax ?_⟩
      · cases commit <;> cases h
      · simpa [Client.endTxn] using h
  | heartbeat _ id wallTime r st hid hr hst =>
    obtain ⟨c, hc, hb, hrid, hle, hnn, hcom⟩ := hs.records id r hid hr
    exact hs.of_changed hl (fun _ _ h => Or.inl h)
      (changed_record hst ⟨c, hc, hb, hrid, hle, hnn, hcom⟩) (fun _ h => Or.inl h)

lemma Effect.laid [Backend] (hs : Base s) (h : Effect s a s') : Laid s'.st.eng := by
  cases h with
  | beginTxn id c st hc hphase hb hst => exact hst ▸ hs.laid.put_txn (hs.clients id c hc).isTxn _
  | push e latest r r' st hid hr hp hr' hst => exact hst ▸ hs.laid.put_txn hid _
  | endTxn id c commit ts r st hc hphase hr hp hst =>
    exact hst ▸ hs.laid.put_txn (hs.clients id c hc).isTxn _
  | heartbeat id wallTime r st hid hr hst => exact hst ▸ hs.laid.put_txn hid _
  | put id key v c c' st hc hphase hb hk hput hu => exact hs.laid.updates hu
  | resolve key txn m c' st hin hk hm hid hres hu => exact hs.laid.updates hu
  | _ => exact hs.laid

/-- **Every step in time keeps the invariant.** -/
theorem Base.step [Backend] (hs : Base s) (hin : InTime s a) (h : Effect s a s') : Base s' :=
  ⟨hs.toTold.step hin h.move, h.laid hs⟩

lemma Init.told (h : Init s) : Told s where
  clients := fun id c hc => by simp [h.noClient] at hc
  records := fun id r hid hr => by simp [h.noRecord id hid] at hr
  handed := fun t ht => by simp [h.noHanded] at ht

lemma Init.base (h : Init s) : Base s := ⟨h.told, h.ok, h.dataKey⟩

/-- **Every run in time keeps it**, on every engine, and what `Later` says stays. -/
theorem Told.run [Backend] {C : Sys → Act → Prop} (hC : ∀ s a, C s a → InTime s a) {l : List Act}
    (hs : Told s) (hl : Steps.Along Protocol.step C s l)
    (hrun : Steps.run Protocol.step s l = some s') : Told s' ∧ Later s s' := by
  refine Steps.invariant (P := fun x => Told x ∧ Later s x) (C := C) (fun x a x' hx hca hstep => ?_)
    ⟨hs, Later.refl s⟩ hl hrun
  have hm := step_move hx.1 hstep
  exact ⟨hx.1.step (hC x a hca) hm, hx.2.trans (hm.later hx.1)⟩

lemma wrote_cons (w : Client) (k key : Key) (v : Value) :
    ({ w with writes := (key, v) :: w.writes } : Client).wrote k =
      if key = k then some v else w.wrote k := by
  by_cases hk : key = k <;> simp [Client.wrote, hk]

/-- Every client has written to `k` what it had written before. -/
def SameWrites (k : Key) (s s' : Sys) : Prop :=
  ∀ id w w', s.clients.get id = some w → s'.clients.get id = some w' → w'.wrote k = w.wrote k

lemma SameWrites.of_eq {k : Key} (h : s'.clients = s.clients) : SameWrites k s s' := by
  intro id w w' hw hw'
  rw [h, hw, Option.some.injEq] at hw'
  rw [hw']

lemma SameWrites.setClient {k id : Key} {c c' : Client} {s₀ : Sys} (h : s₀.clients = s.clients)
    (hc : s.clients.get id = some c) (hwrote : c'.wrote k = c.wrote k) :
    SameWrites k s (s₀.setClient id c') := by
  intro i w w' hw hw'
  rcases setClient_cases hw' with ⟨rfl, rfl⟩ | ⟨-, hw'⟩
  · rw [hc, Option.some.injEq] at hw
    rw [hwrote, hw]
  · rw [h, hw, Option.some.injEq] at hw'
    rw [hw']

/-- **What a step does to a cell**: it is the key of a put that succeeds, the key of an intent that
is resolved, or it stays as it is and nobody has written to it. -/
theorem Effect.cell_cases [Backend] (hs : Base s) (h : Effect s a s') {k : Key} (hk : isUserKey k) :
    cell s'.st.eng k = cell s.st.eng k ∧ SameWrites k s s' ∨
      (∃ id v w, a = .put id k v ∧ s.clients.get id = some w ∧ w.phase = .running ∧ w.begun ∧
        (∀ i, s'.clients.get i = if i = id then some { w with
          writes := if s.records k v then (k, v) :: w.writes else w.writes }
          else s.clients.get i) ∧
        (cell s.st.eng k).PutTo (w.putRequest k v) (cell s'.st.eng k)) ∨
      ∃ txn m, a = .resolve k txn ∧ txn ∈ s.handed ∧ s'.clients = s.clients ∧
        metaAt s.st.eng k = some m ∧ m.transactionID = txn.id ∧
        (cell s.st.eng k).Resolved m txn (cell s'.st.eng k) := by
  cases h with
  | idle | handOut => exact .inl ⟨rfl, .of_eq rfl⟩
  | start id priority ts hf hid hnew =>
    refine .inl ⟨rfl, fun i w w' hw hw' => ?_⟩
    rcases setClient_cases hw' with ⟨rfl, -⟩ | ⟨-, hw'⟩
    · rw [hnew] at hw
      cases hw
    · rw [show s.clients.get i = some w' from hw', Option.some.injEq] at hw
      rw [hw]
  | beginTxn id c st hc hphase hb hst =>
    exact .inl ⟨(congrArg (cell · k) hst).trans (cell_put_txn hk (hs.clients id c hc).isTxn _),
      .setClient rfl hc rfl⟩
  | get id key c r hc hphase hkey hr => exact .inl ⟨rfl, .setClient rfl hc rfl⟩
  | put id key v c c' st hc hphase hb hkey hput hu =>
    by_cases hne : k = key
    · subst hne
      refine .inr (.inl ⟨id, v, c, rfl, hc, hphase, hb, fun i => by simp, ?_⟩)
      exact hu.cell_self.symm ▸ Cell.put_cases hput
    · refine .inl ⟨cell_updates hu hne, .setClient rfl hc ?_⟩
      split_ifs
      · exact (wrote_cons c k key v).trans (if_neg (Ne.symm hne))
      · rfl
  | fail _ id c hc hphase => exact .inl ⟨rfl, .setClient rfl hc rfl⟩
  | push e latest r r' st hid hr hp hr' hst =>
    exact .inl ⟨(congrArg (cell · k) hst).trans (cell_put_txn hk hid _), .of_eq rfl⟩
  | resolve key txn m c' st hin hkey hm hid hres hu =>
    by_cases hne : k = key
    · subst hne
      exact .inr (.inr ⟨txn, m, rfl, hin, rfl, hm, hid, hu.cell_self.symm ▸ hres⟩)
    · exact .inl ⟨cell_updates hu hne, .of_eq rfl⟩
  | draw _ id c commit ts hc hf hphase hb => exact .inl ⟨rfl, .setClient rfl hc rfl⟩
  | endTxn id c commit ts r st hc hphase hr hp hst =>
    exact .inl ⟨(congrArg (cell · k) hst).trans (cell_put_txn hk (hs.clients id c hc).isTxn _),
      .setClient rfl hc rfl⟩
  | heartbeat id wallTime r st hid hr hst =>
    exact .inl ⟨(congrArg (cell · k) hst).trans (cell_put_txn hk hid _), .of_eq rfl⟩

/-- A record that was handed out as committed bears the timestamp that its client drew. -/
lemma HandedOk.ended {txn : Transaction} (hh : HandedOk s txn) (hs : Base s)
    (hcom : txn.status = .committed) :
    ∃ w, s.clients.get txn.id = some w ∧ w.phase = .ended true txn.timestamp := by
  obtain ⟨htid, -, r, hr, -, hst, hts⟩ := hh
  obtain ⟨w, hw, -, -, -, -, hended⟩ := hs.records txn.id r htid hr
  refine ⟨w, hw, ?_⟩
  rw [← hts hcom]
  exact hended (by rw [hst (by simp [hcom]), hcom])

end Step

end Ancestor.Protocol
