import Ancestor.ProtocolInv

/-!
The committed history of a key, and how the clients and their reads follow it.

What the protocol is for is a store with many versions: a committed transaction adds its
value at its commit timestamp, and a read at a timestamp finds the newest value at or below
it. The history `h` of a key is that store. Clients and records alone say how it grows; what
an engine keeps of it in the cell of the key is said in the modules after this one.
-/

namespace Ancestor.Protocol

open M Versions

/-! ### The history of one key -/

/-- A transaction that has written `k` and is not decided holds an intent there. -/
def Holds (s : Sys) (k : Key) : Prop :=
  ∀ id w r, s.clients.get id = some w → (w.wrote k).isSome → recAt s.st.eng id = some r →
    r.status = .pending → ∃ m, metaAt s.st.eng k = some m ∧ m.transactionID = id

/-- A commit of `k` at or before `ts` that is still on its way has been pushed past it. -/
def Passed (s : Sys) (k : Key) (ts : Timestamp) : Prop :=
  ∀ id w t r, s.clients.get id = some w → (w.wrote k).isSome → w.phase = .ending true t →
    t ≤ ts → recAt s.st.eng id = some r → r.status = .pending → ts < r.timestamp

/-- The reader `w` got what the history has at its start, and this cannot change any more. -/
def ReadOk (s : Sys) (h : Timestamp → Option Value) (k : Key) (w : Client) (b : Bytes) : Prop :=
  (∃ r, Finds h w.txn.timestamp r ∧ b = (r.getD {}).bytes) ∧ Passed s k w.txn.timestamp

/-- Of two transactions that have written `k`, the first committed before the second started. -/
def Before (s : Sys) (k : Key) (i j : Key) : Prop :=
  ∀ w w' t, s.clients.get i = some w → s.clients.get j = some w' → (w.wrote k).isSome →
    (w'.wrote k).isSome → w.phase = .ended true t → t < w'.txn.timestamp

/-- The history of key `k` in a run from `s₀`: the initial versions and what the clients have
committed, each of them after the one before. -/
structure Ledger (s₀ s : Sys) (k : Key) (h : Timestamp → Option Value) : Prop where
  clock : s₀.clock ≤ s.clock
  begun : ∀ id w, s.clients.get id = some w → (w.wrote k).isSome → w.begun
  born : ∀ id w, s.clients.get id = some w → s₀.clock < w.txn.timestamp
  committed : ∀ id w t v, s.clients.get id = some w → w.phase = .ended true t →
    w.wrote k = some v → h t = some v
  origin : ∀ t v, h t = some v → verAt s₀.st.eng k t = some v ∨
    ∃ id w, s.clients.get id = some w ∧ w.phase = .ended true t ∧ w.wrote k = some v
  initial : ∀ t v, verAt s₀.st.eng k t = some v → h t = some v
  commits : ∀ id, id ∈ s.commits ↔ ∃ w t, s.clients.get id = some w ∧ w.phase = .ended true t
  ordered : s.commits.Pairwise (Before s k)

/-- What the clients have read of `k`: from their own intent, or as `Q` says. -/
def Seen (s : Sys) (k : Key) (Q : Client → Bytes → Prop) : Prop :=
  ∀ id w x, s.clients.get id = some w → x ∈ w.reads → x.key = k →
    (x.own = true → (w.wrote k).isSome) ∧ (x.own = false → Q w x.bytes)

lemma Init.ledger {s₀ : Sys} (hi : Init s₀) (k : Key) : Ledger s₀ s₀ k (verAt s₀.st.eng k) where
  clock := le_rfl
  begun := fun id w hw => by simp [hi.noClient] at hw
  born := fun id w hw => by simp [hi.noClient] at hw
  committed := fun id w t v hw => by simp [hi.noClient] at hw
  origin := fun t v ht => Or.inl ht
  initial := fun t v ht => ht
  commits := fun id => by simp [hi.noCommit, hi.noClient]
  ordered := by simp [hi.noCommit]

/-! ### The logs of a client -/

/-- What a step does to the logs of client `id`. -/
inductive LogStep (s : Sys) (a : Act) (id : Key) (w w' : Client) : Prop
  | same (hreads : w'.reads = w.reads) (hwrites : w'.writes = w.writes)
  | read (key : Key) (r : Option Value) (ha : a = .get id key) (hrun : w.phase = .running)
    (hkey : isUserKey key) (hr : (cell s.st.eng key).Reads id w.txn.timestamp r)
    (hreads : w'.reads = ⟨key, (r.getD {}).bytes,
      (metaAt s.st.eng key).any fun m => decide (m.transactionID = id)⟩ :: w.reads)
    (hwrites : w'.writes = w.writes)
  | write (key : Key) (v : Value) (ha : a = .put id key v) (hreads : w'.reads = w.reads)
    (hwrites : w'.writes = (key, v) :: w.writes)

/-- A client has started in this step, or its logs have gone on. -/
lemma Effect.logs [Backend] {s s' : Sys} {a : Act} (he : Effect s a s') {id : Key} {w' : Client}
    (hw' : s'.clients.get id = some w') : (w'.reads = [] ∧ w'.writes = []) ∨
      ∃ w, s.clients.get id = some w ∧ w'.txn = w.txn ∧ LogStep s a id w w' := by
  have hset : ∀ (st : St) (clock : Timestamp) (handed : List Transaction) (commits : List Key)
      (i : Key) (x x' : Client), s.clients.get i = some x →
      (({ s with st, clock, handed, commits } : Sys).setClient i x').clients.get id = some w' →
      x'.txn = x.txn → LogStep s a i x x' →
        ∃ w, s.clients.get id = some w ∧ w'.txn = w.txn ∧ LogStep s a id w w' := by
    intro st clock handed commits i x x' hx hw' htxn hlog
    rcases setClient_cases hw' with ⟨rfl, rfl⟩ | ⟨-, hw'⟩
    · exact ⟨x, hx, htxn, hlog⟩
    · exact ⟨w', hw', rfl, .same rfl rfl⟩
  cases he with
  | idle | handOut | push | resolve | heartbeat => exact Or.inr ⟨w', hw', rfl, .same rfl rfl⟩
  | start i priority ts hf hid hnew =>
    rcases setClient_cases hw' with ⟨-, rfl⟩ | ⟨-, hw'⟩
    · exact Or.inl ⟨rfl, rfl⟩
    · exact Or.inr ⟨w', hw', rfl, .same rfl rfl⟩
  | beginTxn i c st hc => exact Or.inr (hset _ _ _ _ i c _ hc hw' rfl (.same rfl rfl))
  | fail _ i c hc => exact Or.inr (hset _ _ _ _ i c _ hc hw' rfl (.same rfl rfl))
  | draw _ i c commit ts hc => exact Or.inr (hset _ _ _ _ i c _ hc hw' rfl (.same rfl rfl))
  | endTxn i c commit ts r st hc => exact Or.inr (hset _ _ _ _ i c _ hc hw' rfl (.same rfl rfl))
  | get i key c r hc hphase hkey hr =>
    exact Or.inr (hset _ _ _ _ i c _ hc hw' rfl (.read key r rfl hphase hkey hr rfl rfl))
  | put i key v c c' st hc =>
    refine Or.inr (hset _ _ _ _ i c _ hc hw' rfl ?_)
    by_cases hr : s.records key v = true
    · exact .write key v rfl rfl (if_pos hr)
    · exact .same rfl (if_neg hr)

/-- What has been written stays written. -/
lemma LogStep.wrote_isSome {s : Sys} {a : Act} {id k : Key} {w w' : Client}
    (h : LogStep s a id w w') (hw : (w.wrote k).isSome) : (w'.wrote k).isSome := by
  cases h with
  | same _ hwrites | read _ _ _ _ _ _ _ hwrites => rwa [Client.wrote, hwrites]
  | write key v _ _ hwrites =>
    rw [Client.wrote, hwrites]
    by_cases hk : key = k
    · simp [hk]
    · simpa [Client.wrote, hk] using hw

/-- The reads stay as they were, once the new one is like them. -/
lemma Seen.step [Backend] {s s' : Sys} {a : Act} {k : Key} {Q Q' : Client → Bytes → Prop}
    (hs : Seen s k Q) (he : Effect s a s')
    (hkeep : ∀ id w w' b, s.clients.get id = some w → s'.clients.get id = some w' →
      w'.txn = w.txn → LogStep s a id w w' → Q w b → Q' w' b)
    (hnew : ∀ id w r, a = .get id k → s.clients.get id = some w → w.phase = .running →
      isUserKey k → (cell s.st.eng k).Reads id w.txn.timestamp r →
      ((∃ m, metaAt s.st.eng k = some m ∧ m.transactionID = id) → (w.wrote k).isSome) ∧
      ((∀ m, metaAt s.st.eng k = some m → m.transactionID ≠ id) → Q w (r.getD {}).bytes)) :
    Seen s' k Q' := by
  intro id w' x hw' hx hkey
  rcases he.logs hw' with ⟨hreads, -⟩ | ⟨w, hw, htxn, hlog⟩
  · simp [hreads] at hx
  have hwas : (x.own = true → (w.wrote k).isSome) ∧ (x.own = false → Q w x.bytes) := by
    cases hlog with
    | same hreads _ => exact hs id w x hw (hreads ▸ hx) hkey
    | write key v _ hreads _ => exact hs id w x hw (hreads ▸ hx) hkey
    | read key r ha hrun huser hr hreads _ =>
      rw [hreads] at hx
      rcases List.mem_cons.mp hx with rfl | hx
      · obtain rfl : key = k := hkey
        obtain ⟨hown, hother⟩ := hnew id w r ha hw hrun huser hr
        refine ⟨fun ho => hown ?_, fun ho => hother fun m hm hid => ?_⟩
        · obtain ⟨m, hm, hid⟩ := (Option.any_eq_true _ _).mp ho
          exact ⟨m, hm, by simpa using hid⟩
        · simp [hm, hid] at ho
      · exact hs id w x hw hx hkey
  exact ⟨fun ho => hlog.wrote_isSome (hwas.1 ho),
    fun ho => hkeep id w w' x.bytes hw hw' htxn hlog (hwas.2 ho)⟩

/-! ### What a step does to the history -/

/-- What a step that commits nothing keeps of a client: a commit timestamp that is new lies
past the clock, and only a running transaction writes. -/
structure Kept (s : Sys) (k : Key) (w w' : Client) : Prop where
  txn : w'.txn = w.txn
  begun : w.begun → w'.begun
  ended : ∀ t, w'.phase = .ended true t ↔ w.phase = .ended true t
  ending : ∀ t, w'.phase = .ending true t → w.phase = .ending true t ∨ s.clock < t
  wrote : w'.wrote k = w.wrote k ∨
    w.phase = .running ∧ w'.phase = .running ∧ (w'.wrote k).isSome ∧ w'.begun

/-- A pending record comes from an older pending one, or its client has not begun. -/
def RecKept (s s' : Sys) : Prop :=
  ∀ id r', isTxnID id → recAt s'.st.eng id = some r' → r'.status = .pending →
    (∃ r, recAt s.st.eng id = some r ∧ r.status = .pending ∧ r.timestamp ≤ r'.timestamp) ∨
      ∃ w, s.clients.get id = some w ∧ w.begun = false

/-- A step that commits nothing: its clients are new, or they come from those before. -/
structure Carries (s s' : Sys) (k : Key) : Prop where
  commits : s'.commits = s.commits
  back : ∀ id w', s'.clients.get id = some w' →
    (w'.writes = [] ∧ w'.phase = .running ∧ s.clock < w'.txn.timestamp) ∨
      ∃ w, s.clients.get id = some w ∧ Kept s k w w'
  fwd : ∀ id w, s.clients.get id = some w → ∃ w', s'.clients.get id = some w' ∧ Kept s k w w'

/-- The end request of client `c` is applied in time and commits at `ts`. -/
structure Commits (s : Sys) (a : Act) (s' : Sys) (id : Key) (c : Client) (ts : Timestamp)
    (r : Transaction) : Prop where
  act : a = .endTxn id
  client : s.clients.get id = some c
  phase : c.phase = .ending true ts
  record : recAt s.st.eng id = some r
  pending : r.status = .pending
  inTime : r.timestamp ≤ ts
  get : ∀ i, s'.clients.get i =
    if i = id then some { c with phase := .ended true ts } else s.clients.get i
  commits : s'.commits = s.commits ++ [id]
  clock : s'.clock = s.clock

section Move

variable {s₀ s s' : Sys} {k : Key} {h : Timestamp → Option Value} {a : Act}

lemma Kept.refl (s : Sys) (k : Key) (w : Client) : Kept s k w w :=
  ⟨rfl, id, fun _ => Iff.rfl, fun _ => Or.inl, Or.inl rfl⟩

lemma Kept.wrote_of_ended {w w' : Client} (hk : Kept s k w w') {t : Timestamp}
    (ht : w.phase = .ended true t) : w'.wrote k = w.wrote k :=
  hk.wrote.resolve_right fun hr => by simp [ht] at hr

lemma Kept.isSome {w w' : Client} (hk : Kept s k w w') (hw : (w.wrote k).isSome) :
    (w'.wrote k).isSome := by
  rcases hk.wrote with h | h
  · rwa [h]
  · exact h.2.2.1

/-- A put of a running client. -/
lemma Kept.write {w : Client} (key : Key) (v : Value) (hrun : w.phase = .running) (hb : w.begun) :
    Kept s k w { w with
      writes := if s.records key v then (key, v) :: w.writes else w.writes } := by
  refine ⟨rfl, fun h => h, fun _ => Iff.rfl, fun _ => Or.inl, ?_⟩
  split_ifs
  · by_cases hk : key = k
    · exact Or.inr ⟨hrun, hrun, by simp [wrote_cons, hk], hb⟩
    · exact Or.inl ((wrote_cons w k key v).trans (if_neg hk))
  · exact Or.inl rfl

/-- A client that neither ends nor has ended goes to another phase. -/
lemma Kept.phase {w : Client} {p : Phase} (hw : ∀ t, w.phase ≠ .ended true t)
    (hp : ∀ t, p ≠ .ended true t) (hnew : ∀ t, p = .ending true t → s.clock < t) :
    Kept s k w { w with phase := p } :=
  ⟨rfl, fun h => h, fun t => ⟨fun h => absurd h (hp t), fun h => absurd h (hw t)⟩,
    fun t h => Or.inr (hnew t h), Or.inl rfl⟩

lemma recKept_same (hst : ∀ id, isTxnID id → recAt s'.st.eng id = recAt s.st.eng id) :
    RecKept s s' := fun id r' hid hr hp => Or.inl ⟨r', hst id hid ▸ hr, hp, le_rfl⟩

lemma recKept_put {id : Key} {r₁ : Transaction}
    (hst : ∀ i, recAt s'.st.eng i = if i = id then some r₁ else recAt s.st.eng i)
    (h : r₁.status = .pending →
      (∃ r, recAt s.st.eng id = some r ∧ r.status = .pending ∧ r.timestamp ≤ r₁.timestamp) ∨
        ∃ w, s.clients.get id = some w ∧ w.begun = false) : RecKept s s' := by
  intro i r' _ hr hp
  rw [hst] at hr
  split_ifs at hr with hi
  · cases hr
    exact hi ▸ h hp
  · exact Or.inl ⟨r', hr, hp, le_rfl⟩

lemma Move.recKept (hm : Move s a s') : RecKept s s' := by
  cases hm with
  | keep _ st hst => exact recKept_same hst
  | start | read | handOut | draw => exact recKept_same fun _ _ => rfl
  | write id key v c st hc hphase hb hst => exact recKept_same hst
  | fail _ id c st hc hphase hst => exact recKept_same hst
  | beginTxn id c st hc hphase hb hst => exact recKept_put hst fun _ => Or.inr ⟨c, hc, hb⟩
  | push _ id r r' st hid hr hp hr' hst =>
    refine recKept_put hst fun _ => Or.inl ⟨r, hr, hp, ?_⟩
    cases hr' with
    | aborted => exact le_rfl
    | moved t hlt _ => exact hlt.le
  | endTxn id c commit ts r st hc hphase hr hp hst =>
    refine recKept_put hst fun h => ?_
    cases commit <;> cases h
  | heartbeat _ id wallTime r st hid hr hst =>
    exact recKept_put hst fun hp => Or.inl ⟨r, hr, hp, le_rfl⟩

lemma Carries.sameClients (hcommits : s'.commits = s.commits) (hclients : s'.clients = s.clients) :
    Carries s s' k :=
  ⟨hcommits, fun _ x hx => Or.inr ⟨x, hclients ▸ hx, Kept.refl s k x⟩,
    fun _ x hx => ⟨x, hclients ▸ hx, Kept.refl s k x⟩⟩

lemma Carries.setClient {st : St} {clock : Timestamp} {handed : List Transaction} {id : Key}
    {w w' : Client} (hw : s.clients.get id = some w) (hk : Kept s k w w') :
    Carries s (({ s with st, clock, handed } : Sys).setClient id w') k := by
  refine ⟨rfl, fun i x' hx' => Or.inr ?_, fun i x hx => ?_⟩
  · rcases setClient_cases hx' with ⟨rfl, rfl⟩ | ⟨-, hx'⟩
    · exact ⟨w, hw, hk⟩
    · exact ⟨x', hx', Kept.refl s k x'⟩
  · by_cases hi : i = id
    · subst hi
      rw [hw, Option.some.injEq] at hx
      exact ⟨w', by simp, hx ▸ hk⟩
    · exact ⟨x, by simpa [hi] using hx, Kept.refl s k x⟩

/-- **A step commits nothing, or one transaction at the timestamp it has drawn.** -/
theorem Move.carries_or_commits (hm : Move s a s') (hin : InTime s a) (k : Key) :
    Carries s s' k ∨ ∃ id c ts r, Commits s a s' id c ts r := by
  cases hm with
  | keep | handOut | push | heartbeat => exact .inl (.sameClients rfl rfl)
  | start id priority ts hf hid hnew =>
    refine .inl ⟨rfl, fun i x' hx' => ?_, fun i x hx => ?_⟩
    · rcases setClient_cases hx' with ⟨-, rfl⟩ | ⟨-, hx'⟩
      · exact Or.inl ⟨rfl, rfl, hf.1⟩
      · exact Or.inr ⟨x', hx', Kept.refl s k x'⟩
    · have hi : i ≠ id := by rintro rfl; simp [hnew] at hx
      exact ⟨x, by simpa [hi] using hx, Kept.refl s k x⟩
  | beginTxn id c st hc hphase hb hst =>
    exact .inl (.setClient hc ⟨rfl, fun _ => rfl, fun _ => Iff.rfl, fun _ => Or.inl, Or.inl rfl⟩)
  | read id key c x hc =>
    exact .inl (.setClient hc ⟨rfl, fun h => h, fun _ => Iff.rfl, fun _ => Or.inl, Or.inl rfl⟩)
  | write id key v c st hc hphase hb hst => exact .inl (.setClient hc (.write key v hphase hb))
  | fail _ id c st hc hphase hst =>
    refine .inl (.setClient hc (.phase (fun t h => ?_) (by simp) (by simp)))
    simp [h] at hphase
  | draw _ id c commit ts hc hf hphase hb =>
    refine .inl (.setClient hc (.phase (fun t h => ?_) (by simp) fun t h => ?_))
    · simp [h] at hphase
    · simp only [Phase.ending.injEq] at h
      exact h.2 ▸ hf.1
  | endTxn id c commit ts r st hc hphase hr hp hst =>
    cases commit with
    | false => exact .inl (.setClient hc (.phase (by simp [hphase]) (by simp) (by simp)))
    | true =>
      exact .inr ⟨id, c, ts, r, rfl, hc, hphase, hr, hp,
        hin id rfl c hc r hr hp ts (by rw [hphase]; rfl), fun i => by simp, rfl, rfl⟩

end Move

/-! ### Reads along a step -/

section Reads

variable {s₀ s s' : Sys} {k : Key} {h : Timestamp → Option Value} {a : Act} {ts : Timestamp}

/-- What is on its way to commit was so before, or has been drawn past the clock. -/
lemma Passed.step (hs : Told s) (hb : Ledger s₀ s k h) (hrec : RecKept s s')
    (hts : ts ≤ s.clock)
    (hback : ∀ id w' t, s'.clients.get id = some w' → (w'.wrote k).isSome →
      w'.phase = .ending true t → (∃ w, s.clients.get id = some w ∧ (w.wrote k).isSome ∧
        w.phase = .ending true t) ∨ s.clock < t)
    (hp : Passed s k ts) : Passed s' k ts := by
  intro id w' t r' hw' hwrote hphase hle hr' hpend
  rcases hback id w' t hw' hwrote hphase with ⟨w, hw, hwr, hph⟩ | hlt
  · rcases hrec id r' (hs.clients id w hw).isTxn hr' hpend with
      ⟨r, hr, hpr, hle'⟩ | ⟨w₀, hw₀, hnb⟩
    · exact (hp id w t r hw hwr hph hle hr hpr).trans_le hle'
    · rw [hw, Option.some.injEq] at hw₀
      rw [← hw₀, hb.begun id w hw hwr] at hnb
      cases hnb
  · exact absurd (hle.trans hts) (not_le.mpr hlt)

lemma Passed.carries (hs : Told s) (hb : Ledger s₀ s k h) (hrec : RecKept s s')
    (hc : Carries s s' k) (hts : ts ≤ s.clock) (hp : Passed s k ts) : Passed s' k ts := by
  refine hp.step hs hb hrec hts fun id w' t hw' hwrote hphase => ?_
  rcases hc.back id w' hw' with ⟨hno, -, -⟩ | ⟨w, hw, hk⟩
  · simp [Client.wrote, hno] at hwrote
  · refine (hk.ending t hphase).imp_left fun hp' => ⟨w, hw, ?_, hp'⟩
    rcases hk.wrote with h | h
    · rwa [h] at hwrote
    · simp [hphase] at h

/-- What was read stays what the history has at the reader's start. -/
lemma ReadOk.carries (hs : Told s) (hb : Ledger s₀ s k h) (hrec : RecKept s s')
    (hc : Carries s s' k) {id : Key} {w w' : Client} {b : Bytes} (hw : s.clients.get id = some w)
    (htxn : w'.txn = w.txn) (hr : ReadOk s h k w b) : ReadOk s' h k w' b := by
  rw [ReadOk, htxn]
  exact ⟨hr.1, hr.2.carries hs hb hrec hc (hs.clients id w hw).le_clock⟩

/-- The history after a commit at `ts` of a transaction that has written `v`, if anything. -/
def addCommit (h : Timestamp → Option Value) (ts : Timestamp) (v : Option Value) :
    Timestamp → Option Value := fun t => if t = ts ∧ v.isSome then v else h t

/-- A commit adds nothing to what a reader has found: one at or before the start of the reader
would have been pushed. -/
lemma ReadOk.commits (hs : Told s) (hb : Ledger s₀ s k h) (hrec : RecKept s s') {id i : Key}
    {c w w' : Client} {r : Transaction} (hc : Commits s a s' id c ts r) {b : Bytes}
    (hw : s.clients.get i = some w) (htxn : w'.txn = w.txn) (hread : ReadOk s h k w b) :
    ReadOk s' (addCommit h ts (c.wrote k)) k w' b := by
  obtain ⟨⟨v, hv, hbytes⟩, hpass⟩ := hread
  rw [ReadOk, htxn]
  refine ⟨⟨v, hv.congr fun u hu => if_neg ?_, hbytes⟩,
    hpass.step hs hb hrec (hs.clients i w hw).le_clock fun j x t hx hwr hpx => Or.inl ?_⟩
  · rintro ⟨rfl, hwr⟩
    exact absurd (hpass id c u r hc.client hwr hc.phase hu hc.record hc.pending)
      (not_lt.mpr (hc.inTime.trans hu))
  · rw [hc.get] at hx
    split_ifs at hx with hj
    · cases hx
      cases hpx
    · exact ⟨x, hx, hwr, hpx⟩

end Reads

/-! ### The history along a step -/

section Ledger

variable {s₀ s s' : Sys} {k : Key} {h : Timestamp → Option Value} {a : Act}

/-- A step that commits nothing keeps the history. -/
lemma Ledger.carries (hv : Ledger s₀ s k h) (hclock : s.clock ≤ s'.clock) (hc : Carries s s' k) :
    Ledger s₀ s' k h where
  clock := hv.clock.trans hclock
  begun := fun id w' hw' hwrote => by
    rcases hc.back id w' hw' with ⟨hno, -, -⟩ | ⟨w, hw, hk⟩
    · simp [Client.wrote, hno] at hwrote
    · rcases hk.wrote with h | h
      · exact hk.begun (hv.begun id w hw (h ▸ hwrote))
      · exact h.2.2.2
  born := fun id w' hw' => by
    rcases hc.back id w' hw' with ⟨-, -, hlt⟩ | ⟨w, hw, hk⟩
    · exact hv.clock.trans_lt hlt
    · exact hk.txn ▸ hv.born id w hw
  committed := fun id w' t v hw' hp hwrote => by
    rcases hc.back id w' hw' with ⟨hno, -, -⟩ | ⟨w, hw, hk⟩
    · simp [Client.wrote, hno] at hwrote
    · have hp' := (hk.ended t).mp hp
      exact hv.committed id w t v hw hp' ((hk.wrote_of_ended hp').symm.trans hwrote)
  origin := fun t v ht => by
    rcases hv.origin t v ht with h | ⟨id, w, hw, hp, hwrote⟩
    · exact Or.inl h
    · obtain ⟨w', hw', hk⟩ := hc.fwd id w hw
      exact Or.inr ⟨id, w', hw', (hk.ended t).mpr hp, (hk.wrote_of_ended hp).trans hwrote⟩
  initial := hv.initial
  commits := fun id => by
    rw [hc.commits, hv.commits]
    constructor
    · rintro ⟨w, t, hw, hp⟩
      obtain ⟨w', hw', hk⟩ := hc.fwd id w hw
      exact ⟨w', t, hw', (hk.ended t).mpr hp⟩
    · rintro ⟨w', t, hw', hp⟩
      rcases hc.back id w' hw' with ⟨-, hrun, -⟩ | ⟨w, hw, hk⟩
      · simp [hrun] at hp
      · exact ⟨w, t, hw, (hk.ended t).mp hp⟩
  ordered := by
    rw [hc.commits]
    refine hv.ordered.imp_of_mem fun {i j} hi hj hij w' x' t hw' hx' hwr hxr hp => ?_
    -- both have ended, so what they wrote has not changed
    obtain ⟨w, u, hw, hu⟩ := (hv.commits i).mp hi
    obtain ⟨x, v, hx, hv'⟩ := (hv.commits j).mp hj
    obtain ⟨w₁, hw₁, hkw⟩ := hc.fwd i w hw
    obtain ⟨x₁, hx₁, hkx⟩ := hc.fwd j x hx
    rw [hw', Option.some.injEq] at hw₁
    rw [hx', Option.some.injEq] at hx₁
    subst hw₁ hx₁
    rw [hkw.wrote_of_ended hu] at hwr
    rw [hkx.wrote_of_ended hv'] at hxr
    exact hkx.txn ▸ hij w x t hw hx hwr hxr ((hkw.ended t).mp hp)

variable {id : Key} {c : Client} {ts : Timestamp} {r : Transaction}

/-- A client in another phase is not the one that is ending. -/
lemma Commits.ne (hc : Commits s a s' id c ts r) {i : Key} {w : Client}
    (hw : s.clients.get i = some w) (hne : w.phase ≠ .ending true ts) : i ≠ id := by
  rintro rfl
  rw [hc.client, Option.some.injEq] at hw
  exact hne (hw ▸ hc.phase)

/-- A client after the commit is the one that has committed, or as it was. -/
lemma Commits.cases (hc : Commits s a s' id c ts r) {i : Key} {w' : Client}
    (hw' : s'.clients.get i = some w') :
    (i = id ∧ w' = { c with phase := .ended true ts }) ∨ (i ≠ id ∧ s.clients.get i = some w') := by
  rw [hc.get] at hw'
  split_ifs at hw' with hi
  · exact .inl ⟨hi, (Option.some.inj hw').symm⟩
  · exact .inr ⟨hi, hw'⟩

/-- The clients that have committed, when one more does. -/
lemma Ledger.mem_commits (hv : Ledger s₀ s k h) (hc : Commits s a s' id c ts r) (i : Key) :
    i ∈ s'.commits ↔ ∃ w t, s'.clients.get i = some w ∧ w.phase = .ended true t := by
  rw [hc.commits, List.mem_append, List.mem_singleton, hv.commits]
  constructor
  · rintro (⟨w, t, hw, hpw⟩ | rfl)
    · have hi := hc.ne hw (by simp [hpw])
      exact ⟨w, t, by rw [hc.get, if_neg hi, hw], hpw⟩
    · exact ⟨{ c with phase := .ended true ts }, ts, by rw [hc.get, if_pos rfl], rfl⟩
  · rintro ⟨w, t, hw, hpw⟩
    rcases hc.cases hw with ⟨hi, -⟩ | ⟨-, hw⟩
    · exact .inr hi
    · exact .inl ⟨w, t, hw, hpw⟩

/-- The one that commits comes after those that have. -/
lemma Ledger.ordered_commit (hv : Ledger s₀ s k h) (hc : Commits s a s' id c ts r)
    (hbefore : (c.wrote k).isSome → ∀ t, h t ≠ none → t < c.txn.timestamp) :
    s'.commits.Pairwise (Before s' k) := by
  have hne : ∀ i ∈ s.commits, i ≠ id := fun i hi => by
    obtain ⟨w, t, hw, hpw⟩ := (hv.commits i).mp hi
    exact hc.ne hw (by simp [hpw])
  rw [hc.commits]
  refine List.pairwise_append.mpr ⟨?_, List.pairwise_singleton _ _, ?_⟩
  · refine hv.ordered.imp_of_mem fun {i j} hi hj hij w x t hw hx => ?_
    rw [hc.get, if_neg (hne i hi)] at hw
    rw [hc.get, if_neg (hne j hj)] at hx
    exact hij w x t hw hx
  · intro i hi j hj w x t hw hx hwr hxr hpw
    rw [List.mem_singleton.mp hj, hc.get, if_pos rfl, Option.some.injEq] at hx
    rw [hc.get, if_neg (hne i hi)] at hw
    subst hx
    obtain ⟨v, hv'⟩ := Option.isSome_iff_exists.mp hwr
    exact hbefore hxr t (by simp [hv.committed i w t v hw hpw hv'])

/-- The end request that commits adds what the transaction has written, when everything in the
history is older than its start. -/
lemma Ledger.commit (hs : Told s) (hv : Ledger s₀ s k h) (hc : Commits s a s' id c ts r)
    (hbefore : (c.wrote k).isSome → ∀ t, h t ≠ none → t < c.txn.timestamp) :
    Ledger s₀ s' k (addCommit h ts (c.wrote k)) := by
  obtain ⟨-, -, hlt, -⟩ := (hs.clients id c hc.client).drawn ts (by rw [hc.phase]; rfl)
  have hmono : ∀ t v, h t = some v → addCommit h ts (c.wrote k) t = some v := by
    intro t v ht
    rw [addCommit, if_neg, ht]
    rintro ⟨rfl, hw⟩
    exact absurd (hbefore hw t (by simp [ht])) (not_lt.mpr hlt.le)
  exact {
    clock := hc.clock.symm ▸ hv.clock
    begun := by
      intro i w' hw' hwr
      rcases hc.cases hw' with ⟨-, rfl⟩ | ⟨-, hw⟩
      · exact hv.begun id c hc.client hwr
      · exact hv.begun i w' hw hwr
    born := by
      intro i w' hw'
      rcases hc.cases hw' with ⟨-, rfl⟩ | ⟨-, hw⟩
      · exact hv.born id c hc.client
      · exact hv.born i w' hw
    committed := by
      intro i w' t v hw' hpw hwr
      rcases hc.cases hw' with ⟨-, rfl⟩ | ⟨-, hw⟩
      · obtain rfl : ts = t := by simpa using hpw
        have hwr' : c.wrote k = some v := hwr
        simp [addCommit, hwr']
      · exact hmono t v (hv.committed i w' t v hw hpw hwr)
    origin := by
      intro t v ht
      rw [addCommit] at ht
      split_ifs at ht with hts
      · exact Or.inr ⟨id, { c with phase := .ended true ts }, by rw [hc.get, if_pos rfl],
          by rw [hts.1], ht⟩
      · rcases hv.origin t v ht with h₀ | ⟨i, w, hw, hpw, hwr⟩
        · exact Or.inl h₀
        · have hi := hc.ne hw (by simp [hpw])
          exact Or.inr ⟨i, w, by rw [hc.get, if_neg hi]; exact hw, hpw, hwr⟩
    initial := fun t v ht => hmono t v (hv.initial t v ht)
    commits := hv.mem_commits hc
    ordered := hv.ordered_commit hc hbefore }

end Ledger

/-! ### Intents along a step -/

section Holds

variable [Backend] {s s' : Sys} {k : Key} {a : Act}

/-- Whoever is not decided and has written the key holds the intent after a put as well. -/
lemma Holds.put (hs : Told s) (hh : Holds s k) {id : Key} {v : Value} {w w' : Client} {c' : Cell}
    (hw : s.clients.get id = some w) (hput : (cell s.st.eng k).PutTo (w.putRequest k v) c')
    (hwrote : (w'.wrote k).isSome → (w.wrote k).isSome ∨ ¬ (cell s.st.eng k).skips v)
    {i : Key} {x : Client} {r : Transaction}
    (hx : i = id ∧ x = w' ∨ i ≠ id ∧ s.clients.get i = some x)
    (hxr : (x.wrote k).isSome) (hr : recAt s.st.eng i = some r) (hp : r.status = .pending) :
    ∃ m, c'.metaData = some m ∧ m.transactionID = i := by
  have hid := (hs.clients id w hw).id_eq
  rcases hx with ⟨rfl, rfl⟩ | ⟨hi, hx⟩
  · cases hput with
    | skip hskip _ =>
      rcases hwrote hxr with hwr | hno
      · exact hh i w r hw hwr hr hp
      · exact absurd hskip hno
    | write _ _ _ => exact ⟨_, rfl, hid⟩
    | movedSkip m _ hm _ hmid _ =>
      exact ⟨m, (Cell.drop_metaData _ _).trans hm, hmid.trans hid⟩
    | movedWrite m _ _ _ _ _ => exact ⟨_, rfl, hid⟩
  · -- a put does not get past the intent of another transaction
    obtain ⟨m, hm, hmid⟩ := hh i x r hx hxr hr hp
    have hne : m.transactionID ≠ [] := hmid ▸ ne_nil_of_isTxnID (hs.clients i x hx).isTxn
    have hother : m.transactionID ≠ w.txn.id := by rw [hmid, hid]; exact hi
    have heq : ∀ m', (cell s.st.eng k).metaData = some m' → m' = m := fun m' hm' =>
      Option.some.inj (hm'.symm.trans hm)
    cases hput with
    | skip _ hown => exact absurd (hown m hm hne).1 hother
    | write _ _ hown => exact absurd (hown m hm hne).1 hother
    | movedSkip m' _ hm' _ hmid' _ => exact absurd (heq m' hm' ▸ hmid') hother
    | movedWrite m' _ hm' _ hmid' _ => exact absurd (heq m' hm' ▸ hmid') hother

/-- An undecided writer is resolved with a pending record, which leaves the intent theirs. -/
lemma Holds.resolved (hh : Holds s k) {m : MVCCMetadata} {txn : Transaction} {c' : Cell}
    (hok : HandedOk s txn) (hm : metaAt s.st.eng k = some m) (hid : m.transactionID = txn.id)
    (hres : (cell s.st.eng k).Resolved m txn c') {i : Key} {x : Client} {r : Transaction}
    (hx : s.clients.get i = some x) (hxr : (x.wrote k).isSome) (hr : recAt s.st.eng i = some r)
    (hp : r.status = .pending) : ∃ m, c'.metaData = some m ∧ m.transactionID = i := by
  obtain ⟨-, -, r', hr', -, hdec, -⟩ := hok
  obtain ⟨m', hm', hmid⟩ := hh i x r hx hxr hr hp
  rw [hm, Option.some.injEq] at hm'
  subst hm'
  rw [← hid, hmid, hr, Option.some.injEq] at hr'
  subst hr'
  have hpend : txn.status = .pending := by_contra fun hne => hne (hdec hne ▸ hp)
  cases hres with
  | pendingStay _ _ => exact ⟨m, hm, hmid⟩
  | pendingMove v _ _ _ => exact ⟨_, Cell.move_metaData _ _ _ _ _, hid.symm.trans hmid⟩
  | commitStay hc _ => simp [hpend] at hc
  | commitMove v hc _ _ => simp [hpend] at hc
  | abortLast ha _ => simp [hpend] at ha
  | abortOlder t v ha _ _ _ => simp [hpend] at ha

/-- **Undecided writers hold their intents after every step.** -/
theorem Holds.step (hs : Base s) (hh : Holds s k) (hk : isUserKey k)
    (hbegun : ∀ id w, s.clients.get id = some w → (w.wrote k).isSome → w.begun)
    (he : Effect s a s') : Holds s' k := by
  intro i x' r' hx' hwr hr' hp
  show ∃ m, (cell s'.st.eng k).metaData = some m ∧ m.transactionID = i
  -- the record was pending before, of a client that has begun
  have hold : ∀ x, s.clients.get i = some x → x.begun →
      ∃ r, recAt s.st.eng i = some r ∧ r.status = .pending := fun x hx hb => by
    rcases he.move.recKept i r' (hs.clients i x hx).isTxn hr' hp with ⟨r, hr, hpr, -⟩ | ⟨y, hy, hnb⟩
    · exact ⟨r, hr, hpr⟩
    · rw [hx, Option.some.injEq] at hy
      rw [← hy, hb] at hnb
      cases hnb
  rcases he.cell_cases hs hk with ⟨heq, hsame⟩ | ⟨id, v, w, -, hw, hrun, hb, hget, hput⟩ |
    ⟨txn, m, -, hin, hclients, hm, hid, hres⟩
  · rcases he.logs hx' with ⟨-, hno⟩ | ⟨x, hx, -, -⟩
    · simp [Client.wrote, hno] at hwr
    · rw [hsame i x x' hx hx'] at hwr
      obtain ⟨r, hr, hpr⟩ := hold x hx (hbegun i x hx hwr)
      exact heq ▸ hh i x r hx hwr hr hpr
  · rw [hget] at hx'
    have hwrote : (({ w with writes := if s.records k v then (k, v) :: w.writes else w.writes } :
        Client).wrote k).isSome → (w.wrote k).isSome ∨ ¬ (cell s.st.eng k).skips v := fun h => by
      by_cases hr : s.records k v = true
      · exact .inr (by simpa [Sys.records] using hr)
      · rw [if_neg hr] at h
        exact .inl h
    by_cases hi : i = id
    · subst hi
      rw [if_pos rfl] at hx'
      obtain ⟨r, hr, hpr⟩ := hold w hw hb
      exact hh.put hs.toTold hw hput hwrote (.inl ⟨rfl, (Option.some.inj hx').symm⟩) hwr hr hpr
    · rw [if_neg hi] at hx'
      obtain ⟨r, hr, hpr⟩ := hold x' hx' (hbegun i x' hx' hwr)
      exact hh.put hs.toTold hw hput hwrote (.inr ⟨hi, hx'⟩) hwr hr hpr
  · rw [hclients] at hx'
    obtain ⟨r, hr, hpr⟩ := hold x' hx' (hbegun i x' hx' hwr)
    exact hh.resolved (hs.handed txn hin) hm hid hres hx' hwr hr hpr

end Holds

end Ancestor.Protocol
