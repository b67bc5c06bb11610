import Ancestor.Ending

/-!
Transactions one after the other.

Each transaction is run to its end, and the workers have run its tasks, before the next one takes
its timestamp from the oracle. The reference keeps a finite map: a transaction gets the answers of
the map with its own writes made to it, a commit keeps these writes and a rollback drops them.

A commit works on every engine. A rollback of writes that have gone out needs one that clears and
hands out copies; on badger it is sound as long as the writes are still in the buffer.
-/

namespace Ancestor

open M Hoare Client
open Protocol (isUserKey isTxnID)

/-- The reference after a list of calls. -/
def Reference.after (σ : Reference) : List TxnCall → Reference
  | [] => σ
  | call :: calls => (σ.perform call).2.after calls

/-! ### The calls of a transaction -/

def TxnCall.writes : TxnCall → Bool
  | .set _ _ | .delete _ => true
  | .get _ | .seek _ _ | .next => false

def TxnCall.flushes : TxnCall → Bool
  | .seek _ _ => true
  | .set _ _ | .delete _ | .get _ | .next => false

/-- Whether writes go out before the end: an iterator flushes the buffer. -/
def sendsOut (dirty : Bool) : List TxnCall → Bool
  | [] => false
  | call :: calls => (call.flushes && dirty) || sendsOut (dirty || call.writes) calls

/-- The transaction `txn` in the middle of its calls, on the engine it has found as `eng₀`, with the
pool `l`. -/
structure Running (eng₀ : Engine) (txn : Transaction) (w : Session)
    (l : List (RangeID × List Key)) : Prop where
  intents : Over eng₀ txn (w.dbTxn.hasBegin = true) (poolKeys l) w.store.eng
  users : ∀ k ∈ poolKeys l, isUserKey k
  clean : w.dbTxn.dirty = false → ∀ k, w.dbTxn.kvCache.get k = none
  unused : w.dbTxn.dirty = false ∨ w.dbTxn.hasBegin = false → poolKeys l = []

section Calls

variable {env : Env} {eng₀ : Engine} {txn : Transaction} {w : Session} {it : Iter}
  {l : List (RangeID × List Key)} {σ : Reference}

lemma Running.withCache (h : Running eng₀ txn w l) (rangeCache : Client.RangeDescriptorCache) :
    Running eng₀ txn { w with rangeCache } l := ⟨h.intents, h.users, h.clean, h.unused⟩

/-- A write to the buffer makes the transaction dirty. -/
lemma Running.buffer (h : Running eng₀ txn w l) (kvCache : OrdMap Key (Option Bytes)) :
    Running eng₀ txn { w with dbTxn := { w.dbTxn with dirty := true, kvCache } } l :=
  ⟨h.intents, h.users, (fun hd => by cases hd),
    fun hd => h.unused (hd.imp_left fun hd => by cases hd)⟩

variable [Backend] (hsplit : SplitsKeys env.pd) (hts : txn.timestamp.Nonneg)
  (hid : isTxnID txn.id) (hpending : txn.status = .pending)

include hsplit hts hid hpending

/-- **A flush leaves its intents on keys of the pool.** -/
lemma Running.flush (h : Running eng₀ txn w l) (hs : Sound env txn w) {choice : Choice}
    {w' : Session} (hrun : Client.doPutData env choice w = .ok () w') :
    ∃ l', Pooled.doPutData env choice (w, some l) = .ok () (w', some l') ∧
      Running eng₀ txn w' l' ∧ w'.dbTxn.hasBegin = true ∧ w'.dbTxn.dirty = w.dbTxn.dirty := by
  obtain ⟨w₁, hbegun, hover, hkept⟩ := h.intents.ensureBegun hsplit hid hpending hs
  obtain ⟨w₁', hbegun', hs₁, hcache, -⟩ := ensureBegun_ok hsplit hid hpending hs
  obtain rfl : w₁ = w₁' := by
    rw [hbegun] at hbegun'
    cases hbegun'
    rfl
  obtain ⟨l', hpool, hkeys⟩ := Pooled.doPutData_run (l := l) hsplit hbegun hs₁ hrun
  have husers : ∀ k ∈ poolKeys l', isUserKey k := fun k hk => by
    rcases (hkeys k).mp hk with ⟨b, hb⟩ | hk
    · exact (hs₁.buffered k b hb).1
    · exact h.users k hk
  have hsub : poolKeys l ⊆ poolKeys l' := fun k hk => (hkeys k).mpr (.inr hk)
  have hbegun₁ : w₁.dbTxn.hasBegin = true := by rw [hkept]
  have hdirty : w₁.dbTxn.dirty = w.dbTxn.dirty := by rw [hkept]
  have hunused : w.dbTxn.dirty = false ∨ true = false → poolKeys l' = [] := by
    rintro (hd | hd)
    · refine List.eq_nil_iff_forall_not_mem.mpr fun k hk => ?_
      rcases (hkeys k).mp hk with ⟨b, hb⟩ | hk
      · rw [hcache, h.clean hd] at hb
        cases hb
      · rw [h.unused (.inl hd)] at hk
        cases hk
    · cases hd
  have hover := hover.mono (fun _ : w₁.dbTxn.hasBegin = true => trivial) hsub
  refine ⟨l', hpool, ?_⟩
  rcases Pooled.doPutData_cases hsplit hbegun hs₁ hrun with
    ⟨-, rfl⟩ | ⟨-, breqs, rangeCache, w₂, -, hc, hof, hbatch, hsent, rfl⟩
  · refine ⟨⟨hover, husers, fun hd k => ?_, ?_⟩, hbegun₁, hdirty⟩
    · rw [hcache]
      exact h.clean (hdirty ▸ hd) k
    · rw [hdirty, hbegun₁]
      exact hunused
  · have hperm := choice.perm breqs
    have hin : ∀ k ∈ batchKeys (choice.order breqs), k ∈ poolKeys l' := fun k hk =>
      (hkeys k).mpr (.inl ((hbatch k).mp ((hperm.flatMap_right _).mem_iff.mp hk)))
    obtain ⟨w₂', hsent', hkept₂, hover₂⟩ := Over.splitBatchPutRequest hsplit hts hid
      (w := { w₁ with rangeCache }) hover (hs₁.withCache hc)
      (fun breq hbreq => hof breq (hperm.mem_iff.mp hbreq)) hin
    obtain rfl : w₂ = w₂' := by
      rw [hsent] at hsent'
      cases hsent'
      rfl
    have hkept₂ : w₂.dbTxn = w₁.dbTxn := hkept₂
    refine ⟨⟨?_, husers, fun hd k => ?_, ?_⟩, ?_, ?_⟩
    · show Over eng₀ txn (w₂.dbTxn.hasBegin = true) _ _
      rw [hkept₂]
      exact hover₂
    · show (w₂.dbTxn.kvCache.filter choice.left).get k = none
      have hd : w₂.dbTxn.dirty = false := hd
      rw [hkept₂, hdirty] at hd
      rw [OrdMap.get_filter, hkept₂, hcache, h.clean hd]
      exact ite_self none
    · show w₂.dbTxn.dirty = false ∨ w₂.dbTxn.hasBegin = false → _
      rw [hkept₂, hdirty, hbegun₁]
      exact hunused
    · show w₂.dbTxn.hasBegin = true
      rw [hkept₂, hbegun₁]
    · show w₂.dbTxn.dirty = _
      rw [hkept₂, hdirty]

/-- **One call of a running transaction.** Only a flush of writes adds to the pool. -/
theorem perform_runs (hf : Follows env txn (w, it) σ) (hr : Running eng₀ txn w l)
    {call : TxnCall} (hcall : call.Valid) :
    ∃ w' it' l', Pooled.perform env call ((w, it), some l) =
        .ok (σ.perform call).1 ((w', it'), some l') ∧
      Follows env txn (w', it') (σ.perform call).2 ∧ Running eng₀ txn w' l' ∧
      w'.dbTxn.dirty = (w.dbTxn.dirty || call.writes) ∧
      ((call.flushes && w.dbTxn.dirty) = false → poolKeys l' = poolKeys l) := by
  obtain ⟨⟨w', it'⟩, hrun, hf'⟩ := perform_follows hsplit hts hid hpending hf hcall
  cases call with
  | set k v =>
    refine ⟨w', it', l, beside_ok hrun, hf', ?_⟩
    have hset : Client.set k v w = .ok () { w with dbTxn :=
        { w.dbTxn with dirty := true, kvCache := w.dbTxn.kvCache.put (userKey k) (some v) } } := by
      rw [Client.set, if_neg (by simpa using hcall.2)]
      rfl
    rw [perform, run_bind_ok (beside_ok hset)] at hrun
    cases hrun
    exact ⟨hr.buffer _, (Bool.or_true _).symm, fun _ => rfl⟩
  | delete k =>
    refine ⟨w', it', l, beside_ok hrun, hf', ?_⟩
    cases hrun
    exact ⟨hr.buffer _, (Bool.or_true _).symm, fun _ => rfl⟩
  | get k =>
    refine ⟨w', it', l, beside_ok hrun, hf', ?_⟩
    obtain ⟨rangeCache, hget, -⟩ := getAnswer_ok hsplit hts hcall hf.sound
    rw [perform, run_bind_ok (beside_ok hget)] at hrun
    cases (EStateM.Result.ok.inj hrun).2
    exact ⟨hr.withCache rangeCache, (Bool.or_false _).symm, fun _ => rfl⟩
  | next =>
    refine ⟨w', it', l, beside_ok hrun, hf', ?_⟩
    obtain ⟨rows, hahead, -⟩ := hf.ahead
    rw [perform, run_bind_get] at hrun
    cases rows with
    | nil =>
      have hnone : it.result = none := hahead
      simp only [Iter.valid, hnone] at hrun
      cases (EStateM.Result.ok.inj hrun).2
      exact ⟨hr, (Bool.or_false _).symm, fun _ => rfl⟩
    | cons row rows =>
      obtain ⟨hres, hlow, hhigh, -⟩ := hahead
      have hvalid : it.valid = true := by rw [Iter.valid, hres]; rfl
      simp only [hvalid, if_true] at hrun
      obtain ⟨it₁, rangeCache, hnext, -⟩ := Iter.next_ok hsplit hts hf.sound it hlow hhigh
      rw [run_bind_ok (beside_ok hnext)] at hrun
      cases (EStateM.Result.ok.inj hrun).2
      exact ⟨hr.withCache rangeCache, (Bool.or_false _).symm, fun _ => rfl⟩
  | seek k choice =>
    obtain ⟨w₁, hflush, hs₁, -⟩ := doPutData_ok hsplit hts hid hpending hf.sound choice
    obtain ⟨l', hpool, hr₁, -, hdirty⟩ := hr.flush hsplit hts hid hpending hf.sound hflush
    obtain ⟨hlow, hhigh⟩ := between_of_isUserKey (isUserKey_userKey k)
    obtain ⟨it₁, rangeCache, hnext, -⟩ := Iter.next_ok hsplit hts hs₁ (newIter k) hlow hhigh.le
    have hne : k ≠ [] := hcall
    have hk : ¬ k.length = 0 := by simpa using hne
    have hseek : Client.seek env k choice w = .ok it₁ { w₁ with rangeCache } := by
      rw [Client.seek, if_neg hk, run_bind_ok (traced_ok hflush)]
      exact hnext
    have hseek' : Pooled.seek env k choice (w, some l) =
        .ok it₁ ({ w₁ with rangeCache }, some l') := by
      rw [Pooled.seek, if_neg hk, run_bind_ok (traced_ok hpool)]
      exact beside_ok hnext
    have hperform : perform env (.seek k choice) (w, it) =
        .ok (.row it₁.row) ({ w₁ with rangeCache }, it₁) := by
      rw [perform, run_bind_ok (beside_ok hseek)]
      rfl
    rw [hperform] at hrun
    obtain ⟨hanswer, hstate⟩ := EStateM.Result.ok.inj hrun
    obtain ⟨rfl, rfl⟩ := Prod.mk.inj hstate
    refine ⟨_, it₁, l', ?_, hf', hr₁.withCache rangeCache, ?_, fun hclean => ?_⟩
    · rw [Pooled.perform_seek hseek', hanswer]
    · exact hdirty.trans (Bool.or_false _).symm
    · have hclean : w.dbTxn.dirty = false := hclean
      rw [hr.unused (.inl hclean), hr₁.unused (.inl (hdirty.trans hclean))]

/-- **The calls of a transaction.** -/
theorem performAll_runs (hf : Follows env txn (w, it) σ) (hr : Running eng₀ txn w l)
    {calls : List TxnCall} (hcalls : ∀ call ∈ calls, call.Valid) :
    ∃ w' it' l', Pooled.performAll env calls ((w, it), some l) =
        .ok (σ.answers calls) ((w', it'), some l') ∧
      Follows env txn (w', it') (σ.after calls) ∧ Running eng₀ txn w' l' ∧
      (sendsOut w.dbTxn.dirty calls = false → poolKeys l' = poolKeys l) := by
  induction calls generalizing w it l σ with
  | nil => exact ⟨w, it, l, rfl, hf, hr, fun _ => rfl⟩
  | cons call calls ih =>
    obtain ⟨w₁, it₁, l₁, hone, hf₁, hr₁, hdirty, hpool₁⟩ :=
      perform_runs hsplit hts hid hpending hf hr (hcalls call List.mem_cons_self)
    obtain ⟨w', it', l', hrun, hf', hr', hpool'⟩ :=
      ih hf₁ hr₁ fun call' hcall' => hcalls call' (.tail _ hcall')
    refine ⟨w', it', l', ?_, hf', hr', fun hout => ?_⟩
    · rw [Pooled.performAll, run_bind_ok hone, run_bind_ok hrun]
      rfl
    · rw [sendsOut, Bool.or_eq_false_iff, ← hdirty] at hout
      exact (hpool' hout.2).trans (hpool₁ hout.1)

end Calls

/-! ### The end of a transaction -/

section Ends

variable {env : Env} {eng₀ : Engine} {txn : Transaction} {w : Session} {it : Iter}
  {l : List (RangeID × List Key)} {σ : Reference} {ts now : Timestamp}

/-- What a transaction leaves behind that has ended at `ts` and shows `b`. -/
structure Ended (env : Env) (b : Key → Option Bytes) (ts : Timestamp) (w : Session) : Prop extends
    Served env w where
  committed : CommittedBy ts w.store.eng
  shown : ∀ k, shownAt w.store.eng (userKey k) = b k

lemma Ended.of_settling {b : Key → Option Bytes} {eng₁ : Engine} (hw : Served env w)
    (h : Settling b ts eng₁ [] w.store.eng) : Ended env (fun k => b (userKey k)) ts w :=
  ⟨hw, h.committedBy.1, fun k => h.committedBy.2 _ (isUserKey_userKey k)⟩

/-- A transaction that has no key in the pool leaves the engine as it has found it. -/
lemma Running.untouched (hr : Running eng₀ txn w l) (hl : poolKeys l = []) {k : Key}
    (hk : isUserKey k) : cell w.store.eng k = cell eng₀ k :=
  (hr.intents.cells k hk).resolve_right fun hin => by simp [hl] at hin

variable (hsplit : SplitsKeys env.pd) (hts : txn.timestamp.Nonneg) (hid : isTxnID txn.id)
  (h₀ : CommittedBy ts eng₀) (hlt : ts < txn.timestamp) (hup : txn.timestamp < now)
  (hnow : now.Nonneg)

include h₀ hlt hup in
/-- A transaction that ends without touching the store has not touched it before. -/
lemma Running.leave (hs : Sound env txn w) (hr : Running eng₀ txn w l) (hl : poolKeys l = []) :
    Ended env (fun k => shownAt eng₀ (userKey k)) now w := by
  refine ⟨hs.toServed, ⟨hr.intents.toLaid, fun k hk => ?_⟩, fun k => ?_⟩
  · have hcell := (h₀.cell hk).mono (hlt.trans hup).le
    rw [← hr.untouched hl hk] at hcell
    exact hcell
  · rw [shownAt, hr.untouched hl (isUserKey_userKey k)]
    rfl

variable [Backend]

include hsplit hid h₀ hlt hup hnow

/-- **A rollback shows what was there before**: nothing has gone out, or the aborts clear it. -/
lemma rollback_ends (hs : Sound env txn w) (hr : Running eng₀ txn w l)
    (hback : Backend.Documented ∨ poolKeys l = []) (order : SendOrder) :
    ∃ w' pool, Pooled.rollback env now order (w, some l) = .ok () (w', pool) ∧
      Ended env (fun k => shownAt eng₀ (userKey k)) now w' := by
  let txn' : Transaction := { txn with status := .aborted }
  let w₁ : Session := { w with dbTxn.txn := txn' }
  have hstatus : beside (modifyTxn fun t => { t with txn.status := .aborted }) (w, some l) =
      .ok () (w₁, some l) := by
    show EStateM.Result.ok () (({ w with dbTxn.txn.status := .aborted } : Session), some l) = _
    simp only [hs.own, w₁, txn']
  rw [Pooled.rollback, run_bind_ok hstatus, run_bind_get]
  by_cases hbegun : w.dbTxn.hasBegin = true
  · rw [if_pos (show w₁.dbTxn.hasBegin = true from hbegun)]
    have hsame : ∀ k, isUserKey k → cell w.store.eng k = cell eng₀ k →
        Rests (shownAt eng₀) now k (cell w.store.eng k) := fun k hk heq => by
      rw [heq]
      exact ⟨(h₀.cell hk).mono (hlt.trans hup).le, rfl⟩
    have hset : Settles (shownAt eng₀) now w.store.eng { txn' with timestamp := now } :=
      hr.intents.settles h₀ hid rfl (hback.imp And.right .inr) hsame fun k v c hk hin _ hc => by
        have hclears := hback.resolve_right fun hnil => by simp [hnil] at hin
        obtain ⟨hcom, hshown⟩ := (h₀.cell hk).abort hlt hc hclears.1 rfl
        exact ⟨hcom.mono (hlt.trans hup).le, hshown⟩
    obtain ⟨r, hrec, hpending⟩ := hr.intents.record hbegun
    have hid' : isTxnID txn'.id := hid
    obtain ⟨w', pool, hrun, hw', hsettled⟩ := endTransaction_settles (w := w₁) hsplit hid'
      ⟨hs.cached, hs.served⟩ rfl hr.intents.toLaid hrec hpending hnow hset
      (hr.intents.settling hsame) hr.users (fun hd => hr.unused (.inl hd)) order false
    exact ⟨w', pool, hrun, .of_settling hw' hsettled⟩
  · rw [if_neg (show ¬ w₁.dbTxn.hasBegin = true from hbegun)]
    have hl := hr.unused (.inr (by simpa using hbegun))
    obtain ⟨hserved, hcom, hshown⟩ := hr.leave h₀ hlt hup hs hl
    exact ⟨w₁, some l, rfl, ⟨hserved.cached, hserved.served⟩, hcom, hshown⟩

include hts

/-- **A commit shows what the reference has.** -/
lemma commit_ends (hpending : txn.status = .pending) (hf : Follows env txn (w, it) σ)
    (hr : Running eng₀ txn w l) (order : SendOrder) (choice : Choice) :
    ∃ w' pool, Pooled.commit env now order choice (w, some l) = .ok () (w', pool) ∧
      Ended env σ.map.get now w' := by
  have hs : Sound env txn w := hf.sound
  have hview : ∀ k, σ.map.get k = viewed w k := hf.view
  rw [Pooled.commit, run_bind_get]
  by_cases hdirty : w.dbTxn.dirty = true
  · rw [if_pos hdirty]
    obtain ⟨w₁, hflush, hs₁, hshown₁, -⟩ := doPutData_ok hsplit hts hid hpending hs choice
    obtain ⟨l', hpool, hr₁, hbegun, hdirty₁⟩ := hr.flush hsplit hts hid hpending hs hflush
    let txn' : Transaction := { txn with status := .committed }
    let w₂ : Session := { w₁ with dbTxn.txn := txn' }
    have hstatus : beside (modifyTxn fun t => { t with txn.status := .committed })
        (w₁, some l') = .ok () (w₂, some l') := by
      show EStateM.Result.ok () (({ w₁ with dbTxn.txn.status := .committed } : Session), _) = _
      simp only [hs₁.own, w₂, txn']
    rw [run_bind_ok (traced_ok hpool), run_bind_ok hstatus]
    have hsame : ∀ k, isUserKey k → cell w₁.store.eng k = cell eng₀ k →
        Rests (shownAt w₁.store.eng) now k (cell w₁.store.eng k) := fun k hk heq => by
      refine ⟨?_, rfl⟩
      rw [heq]
      exact (h₀.cell hk).mono (hlt.trans hup).le
    have hset : Settles (shownAt w₁.store.eng) now w₁.store.eng { txn' with timestamp := now } :=
      hr₁.intents.settles h₀ hid rfl (.inr (.inl nofun)) hsame fun k v c hk _ heq hc => by
        obtain ⟨hcom, hshown⟩ := (h₀.cell hk).commit hlt hc rfl hup
        exact ⟨hcom, hshown.trans (congrArg Cell.shown heq.symm)⟩
    obtain ⟨r, hrec, hpend⟩ := hr₁.intents.record hbegun
    have hid' : isTxnID txn'.id := hid
    obtain ⟨w', pool, hrun, hw', hsettled⟩ := endTransaction_settles (w := w₂) hsplit hid'
      ⟨hs₁.cached, hs₁.served⟩ rfl hr₁.intents.toLaid hrec hpend hnow hset
      (hr₁.intents.settling hsame) hr₁.users (fun hd => hr₁.unused (.inl hd)) order true
    refine ⟨w', pool, hrun, ?_⟩
    have hended := Ended.of_settling hw' hsettled
    refine ⟨hended.toServed, hended.committed, fun k => (hended.shown k).trans ?_⟩
    rw [hview, hshown₁ _ (isUserKey_userKey k)]
    rfl
  · rw [if_neg hdirty]
    have hclean : w.dbTxn.dirty = false := by simpa using hdirty
    obtain ⟨hserved, hcom, hshown⟩ := hr.leave h₀ hlt hup hs (hr.unused (.inl hclean))
    refine ⟨w, some l, rfl, hserved, hcom, fun k => ?_⟩
    rw [hview, viewed, hr.clean hclean]
    rfl

end Ends

/-! ### Transactions in turn -/

/-- How a transaction ends, with what Go leaves open. -/
inductive TxnEnd
  | commit (choice : Choice) (order : SendOrder)
  | rollback (order : SendOrder)

/-- A transaction of a client: `start` and `stop` are the answers of the oracle when it is made
and when it ends. -/
structure Script where
  name : String
  id : Bytes
  priority : Int32
  start : Timestamp
  stop : Timestamp
  calls : List TxnCall
  ending : TxnEnd

namespace Script

def session (t : Script) (rangeCache : Client.RangeDescriptorCache) (store : Store) : Session where
  dbTxn := newTransaction t.name t.id t.start none t.priority
  rangeCache
  store

def finish [Backend] (env : Env) (t : Script) : CM (Session × Pool) Unit :=
  match t.ending with
  | .commit choice order => Pooled.commit env t.stop order choice
  | .rollback order => Pooled.rollback env t.stop order

/-- The answers of a transaction, and the cache and the store it leaves. -/
def run [Backend] (env : Env) (t : Script) (rangeCache : Client.RangeDescriptorCache)
    (store : Store) :
    Except Error (List Answer × Client.RangeDescriptorCache × Store) :=
  match Pooled.performAll env t.calls ((t.session rangeCache store, newIter []), some []) with
  | .error e _ => .error e
  | .ok answers ((w, _), pool) =>
    match t.finish env (w, pool) with
    | .error e _ => .error e
    | .ok _ (w, _) => .ok (answers, w.rangeCache, w.store)

def runAll [Backend] (env : Env) : List Script → Client.RangeDescriptorCache → Store →
    Except Error (List (List Answer) × Store)
  | [], _, store => .ok ([], store)
  | t :: l, rangeCache, store => do
    let (answers, rangeCache, store) ← t.run env rangeCache store
    let (more, store) ← runAll env l rangeCache store
    return (answers :: more, store)

/-- Only a commit changes the map of the reference. -/
def leaves (m : OrdMap Key Bytes) (t : Script) : OrdMap Key Bytes :=
  match t.ending with
  | .commit _ _ => (Reference.after ⟨m, []⟩ t.calls).map
  | .rollback _ => m

/-- The answers of the reference to transactions in turn, and its map after them. -/
def refer (m : OrdMap Key Bytes) : List Script → List (List Answer) × OrdMap Key Bytes
  | [] => ([], m)
  | t :: l =>
    let (more, m') := refer (t.leaves m) l
    (Reference.answers ⟨m, []⟩ t.calls :: more, m')

/-- The oracle's answers rise, from `ts` on. -/
def Rising : Timestamp → List Script → Prop
  | _, [] => True
  | ts, t :: l => ts < t.start ∧ t.start < t.stop ∧ Rising t.stop l

def Valid (t : Script) : Prop :=
  t.start.Nonneg ∧ t.stop.Nonneg ∧ ∀ call ∈ t.calls, call.Valid

/-- A rollback finds the writes of the transaction in the buffer. -/
def KeepsBack (t : Script) : Prop :=
  match t.ending with
  | .commit _ _ => True
  | .rollback _ => sendsOut false t.calls = false

section Turns

variable [Backend] {env : Env} {rangeCache : Client.RangeDescriptorCache} {store : Store}
  {ts : Timestamp} {m : OrdMap Key Bytes}

/-- **One transaction**, between two others. -/
lemma run_refers (hsplit : SplitsKeys env.pd) {t : Script} (ht : t.Valid)
    (hback : Backend.Documented ∨ t.KeepsBack) (hlt : ts < t.start)
    (hup : t.start < t.stop) (hw : Ended env m.get ts (t.session rangeCache store)) :
    ∃ rangeCache' store', t.run env rangeCache store =
        .ok (Reference.answers ⟨m, []⟩ t.calls, rangeCache', store') ∧
      ∀ dbTxn, Ended env (t.leaves m).get t.stop ⟨dbTxn, rangeCache', store'⟩ := by
  obtain ⟨hstart, hstop, hcalls⟩ := ht
  let w := t.session rangeCache store
  let txn := w.dbTxn.txn
  have hid : isTxnID txn.id := rfl
  have hpending : txn.status = .pending := rfl
  have hts : txn.timestamp.Nonneg := hstart
  have hlt : ts < txn.timestamp := hlt
  have hup : txn.timestamp < t.stop := hup
  have hcom : CommittedBy ts store.eng := hw.committed
  have hheld : Held txn store.eng := CommittedBy.held
    ⟨hcom.toLaid, fun k hk => (hcom.cell hk).mono hlt.le⟩
  have hs : Sound env txn w := ⟨rfl, hw.cached, hw.served, hheld, fun k b hb => by cases hb⟩
  have hf : Follows env txn (w, newIter []) ⟨m, []⟩ :=
    ⟨hs, fun k => (hw.shown k).symm, [], rfl, rfl⟩
  have hr : Running store.eng txn w [] :=
    ⟨.refl hcom.toLaid Bool.false_ne_true, (fun k hk => by cases hk), fun _ _ => rfl, fun _ => rfl⟩
  obtain ⟨w₁, it₁, l, hrun, hf₁, hr₁, hpool⟩ :=
    performAll_runs hsplit hts hid hpending hf hr hcalls
  have hend : ∃ w' pool, t.finish env (w₁, some l) = .ok () (w', pool) ∧
      Ended env (t.leaves m).get t.stop w' := by
    unfold finish leaves
    cases hending : t.ending with
    | commit choice order =>
      exact commit_ends hsplit hts hid hcom hlt hup hstop hpending hf₁ hr₁ order choice
    | rollback order =>
      rw [KeepsBack, hending] at hback
      obtain ⟨w', pool, hrun', hended⟩ := rollback_ends hsplit hid hcom hlt hup hstop hf₁.sound hr₁
        (hback.imp_right hpool) order
      exact ⟨w', pool, hrun', hended.toServed, hended.committed,
        fun k => (hended.shown k).trans (hw.shown k)⟩
  obtain ⟨w', pool, hfinish, hended⟩ := hend
  refine ⟨w'.rangeCache, w'.store, ?_, fun _ =>
    ⟨⟨hended.cached, hended.served⟩, hended.committed, hended.shown⟩⟩
  simp only [run, show t.session rangeCache store = w from rfl, hrun, hfinish]

/-- The induction is on the transactions; the invariant is that everything is committed below the
next one and shows the map. -/
lemma runAll_refers (hsplit : SplitsKeys env.pd) {l : List Script} (hl : ∀ t ∈ l, t.Valid)
    (hback : ∀ t ∈ l, Backend.Documented ∨ t.KeepsBack)
    (hrising : Rising ts l) (hw : ∀ dbTxn, Ended env m.get ts ⟨dbTxn, rangeCache, store⟩) :
    ∃ store', runAll env l rangeCache store = .ok ((refer m l).1, store') ∧
      (∃ ts', CommittedBy ts' store'.eng) ∧
      ∀ k, shownAt store'.eng (userKey k) = (refer m l).2.get k := by
  induction l generalizing ts m rangeCache store with
  | nil =>
    have hw := hw (newTransaction "" [] ts none 0)
    exact ⟨store, rfl, ⟨ts, hw.committed⟩, hw.shown⟩
  | cons t l ih =>
    obtain ⟨hlt, hup, hmore⟩ := hrising
    obtain ⟨rangeCache₁, store₁, hone, hw₁⟩ :=
      run_refers hsplit (hl t List.mem_cons_self) (hback t List.mem_cons_self) hlt hup (hw _)
    obtain ⟨store', hrun, hcom, hshown⟩ := ih (fun t' ht' => hl t' (.tail _ ht'))
      (fun t' ht' => hback t' (.tail _ ht')) hmore hw₁
    refine ⟨store', ?_, hcom, hshown⟩
    rw [runAll, hone]
    simp only [bind, Except.bind, hrun]
    rfl

end Turns

end Script

/-! ### The result -/

/-- **Transactions in turn are those of a finite map.** Whatever the ranges are and whatever order
the batches, the keys and the tasks of the workers come in, transactions that follow each other get
the answers of the map that the committed ones have written, and the engine shows that map at the
end. What a rollback finds sent out has to be cleared; otherwise the engine does not matter. -/
theorem transactions_refine_map [Backend] {env : Env} (hsplit : SplitsKeys env.pd) {ts : Timestamp}
    {rangeCache : Client.RangeDescriptorCache} {store : Store}
    (hcommitted : CommittedBy ts store.eng) (hcached : Cached env.pd rangeCache)
    (hserved : ∀ s rd, env.pd.cache.get s = some rd → txnPrefix ≤ s →
      store.replicas rd.rangeID = some ⟨rd.rangeID, rd⟩)
    {l : List Script} (hvalid : ∀ t ∈ l, t.Valid)
    (hback : ∀ t ∈ l, Backend.Documented ∨ t.KeepsBack)
    (hrising : Script.Rising ts l) :
    ∃ store', Script.runAll env l rangeCache store =
        .ok ((Script.refer (initialMap store.eng) l).1, store') ∧
      initialMap store'.eng = (Script.refer (initialMap store.eng) l).2 := by
  have hw : ∀ dbTxn, Ended env (initialMap store.eng).get ts ⟨dbTxn, rangeCache, store⟩ :=
    fun _ => ⟨⟨hcached, hserved⟩, hcommitted, fun k => (get_initialMap hcommitted.ok k).symm⟩
  obtain ⟨store', hrun, ⟨ts', hcom⟩, hshown⟩ := Script.runAll_refers hsplit hvalid hback hrising hw
  exact ⟨store', hrun,
    OrdMap.ext_get fun k => (get_initialMap hcom.ok k).trans (hshown k)⟩

namespace Serial

def choice : Choice := ⟨List.reverse, List.reverse_perm, fun _ => false⟩

def order : SendOrder := ⟨List.reverse, List.reverse_perm, List.reverse, List.reverse_perm⟩

/-- A commit of writes to two ranges, a rollback of writes that are still in the buffer, and a
reader. -/
def scripts : List Script :=
  [{ name := "1", id := [0x31], priority := 0, start := ⟨8, 0⟩, stop := ⟨9, 0⟩
     calls := [.set [0x63] [0x32], .seek [0x61] choice, .next, .delete [0x61]]
     ending := .commit choice order },
   { name := "2", id := [0x32], priority := 0, start := ⟨10, 0⟩, stop := ⟨11, 0⟩
     calls := [.seek [0x61] choice, .get [0x61], .set [0x61] [0x35], .delete [0x63], .get [0x63]]
     ending := .rollback order },
   { name := "3", id := [0x33], priority := 0, start := ⟨12, 0⟩, stop := ⟨13, 0⟩
     calls := [.get [0x61], .seek [0x61] choice, .next], ending := .commit choice order }]

end Serial

section Shipped

attribute [local instance] Slices.twoItems Backend.badger

open OwnWrites Serial in
theorem transactions_refine_map_three_scripts :
    ∃ store', Script.runAll env scripts {} session.store =
        .ok ([[.done, .row (some ([0x61], [0x31])), .row (some ([0x63], [0x32])), .done],
          [.row (some ([0x63], [0x32])), .value none, .done, .done, .value none],
          [.value none, .row (some ([0x63], [0x32])), .row none]], store') ∧
      (initialMap store'.eng).entries = [([0x63], [0x32])] := by
  have hserved : ∀ s rd, env.pd.cache.get s = some rd → txnPrefix ≤ s →
      session.store.replicas rd.rangeID = some ⟨rd.rangeID, rd⟩ := by
    intro s rd h _
    obtain ⟨hmem, -⟩ := mem_ranges h
    have hall : ∀ rd ∈ ranges, session.store.replicas rd.rangeID = some ⟨rd.rangeID, rd⟩ := by
      decide
    exact hall rd hmem
  have hcached : Cached env.pd {} := fun _ h => by cases h
  have hvalid : ∀ t ∈ scripts, t.Valid := by
    simp [scripts, Script.Valid, TxnCall.Valid]
    decide
  have hback : ∀ t ∈ scripts, Backend.Documented ∨ t.KeepsBack := by
    simp [scripts, Script.KeepsBack, sendsOut, TxnCall.writes, TxnCall.flushes]
  have hrising : Script.Rising ⟨7, 0⟩ scripts := by
    simp only [scripts, Script.Rising]
    decide
  obtain ⟨store', hrun, hmap⟩ :=
    transactions_refine_map splitsKeys committedBy hcached hserved hvalid hback hrising
  refine ⟨store', hrun.trans (congrArg (fun l => Except.ok (l, store')) ?_), ?_⟩
  · decide +kernel
  · rw [hmap]
    decide +kernel

end Shipped

end Ancestor
