import Ancestor.Footprint
import Ancestor.Record
import Ancestor.Split

/-!
Whether a range writes its own keys only.

All ranges of a node share one engine, and a replica checks the header key of a request and no
other. Two commands take the keys they act on from elsewhere: the resolution of a list of
intents, and a push, which stores the record it has found under that record's own ID.
-/

namespace Ancestor

open M Hoare Steps

/-! ### When the resolution of an intent changes something -/

/-- The metadata of a version that is the newest, read off its entry. -/
def olderMeta (x : MVCCKey) (e : Entry) : Option MVCCMetadata :=
  match decodeMVCCKey x, e with
  | .ok (_, timestamp, _), .value ⟨_, some v⟩ => some ⟨[], timestamp, v.bytes.length = 0⟩
  | _, _ => none

/-- The metadata that an abort leaves once it has cleared the version of the intent: that of the
entry below, or none. An entry below that cannot be read stops it before it writes. -/
def abortedMeta [Backend] (eng : Engine) (k : Key) (m : MVCCMetadata) : Option MVCCMetadata :=
  match scan eng (bytesNext (newMVCCTimeKey k m.timestamp)) (newMVCCKey (bytesNext k)) 1 with
  | [] => if Backend.clears then none else some m
  | (x, e) :: _ => some ((olderMeta x e).getD m)

/-- The key has metadata that names the transaction of the intent, and the status of the
transaction asks for a change. -/
def Acts [Backend] (eng : Engine) (i : Intent) : Prop :=
  i.key ≠ [] ∧ ∃ m, metaAt eng i.key = some m ∧ m.transactionID = i.txn.id ∧
    match i.txn.status with
    | .pending => m.timestamp < i.txn.timestamp
    | .committed => m ≠ ⟨[], i.txn.timestamp, m.deleted⟩
    | .aborted =>
      let latestKey := newMVCCTimeKey i.key m.timestamp
      (erase eng latestKey).get latestKey ≠ eng.get latestKey ∨
        abortedMeta (erase eng latestKey) i.key m ≠ some m

section Acts

variable {s : St} {k : Key} {m : MVCCMetadata} {i : Intent}

lemma get_of_metaAt {eng : Engine} (h : metaAt eng k = some m) :
    eng.get (newMVCCKey k) = some (.metaData m) := by
  unfold metaAt at h
  split at h
  · next hg => cases h; exact hg
  · cases h

lemma mvccPutMeta_eng (hk : k ≠ []) (txn : Transaction) (deleted : Bool) (a b : ℕ) (s : St) :
    ∃ x s', mvccPutMeta k txn deleted a b s = .ok x s' ∧
      s'.eng = s.eng.put (newMVCCKey k) (.metaData ⟨txn.id, txn.timestamp, deleted⟩) := by
  rw [mvccPutMeta, if_neg (by simpa using hk)]
  exact ⟨_, _, rfl, rfl⟩

/-- What the intent is resolved with, once it has been found. -/
lemma mvccResolveIntent_found [Backend] (hk : i.key ≠ []) (hm : metaAt s.eng i.key = some m)
    (hid : m.transactionID = i.txn.id) :
    ∃ a b, mvccResolveIntent i s =
      (match i.txn.status with
      | .pending => mvccResolveIntentPending i.key
          { id := i.txn.id, timestamp := i.txn.timestamp } m a b
      | .aborted => mvccResolveIntentAbort i.key { timestamp := i.txn.timestamp } m a b
      | .committed => mvccResolveIntentCommit i.key { timestamp := i.txn.timestamp } m a b) s := by
  have hread : M.read (mvccGetMeta · i.key) s =
      .ok (some m, (newMVCCKey i.key).length, m.size) s := by
    refine read_ok ?_
    rw [mvccGetMeta, if_neg (by simpa using hk)]
    simp only [get_of_metaAt hm]
  refine ⟨(newMVCCKey i.key).length, m.size, ?_⟩
  rw [mvccResolveIntent, run_bind_ok hread]
  cases i.txn.status <;> simp only [hid, ne_eq, not_true, if_false]

lemma metaAt_of_mvccGetMeta {eng : Engine} {a b : ℕ} (h : mvccGetMeta eng k = .ok (some m, a, b)) :
    k ≠ [] ∧ metaAt eng k = some m := by
  unfold mvccGetMeta at h
  split_ifs at h with hk
  refine ⟨by simpa using hk, ?_⟩
  simp only at h
  unfold metaAt
  split at h <;> cases h
  simp only [*]

/-- Without such metadata the request ends where it reads it. -/
lemma mvccResolveIntent_unfound_run [Backend]
    (h : ¬ (i.key ≠ [] ∧ ∃ m, metaAt s.eng i.key = some m ∧ m.transactionID = i.txn.id)) :
    mvccResolveIntent i s = .ok () s ∨
      ∃ e, mvccGetMeta s.eng i.key = .error e ∧ mvccResolveIntent i s = .error e s := by
  unfold mvccResolveIntent
  cases hg : mvccGetMeta s.eng i.key with
  | error e => exact .inr ⟨e, rfl, run_bind_error (read_error hg)⟩
  | ok x =>
    obtain ⟨o, a, b⟩ := x
    left
    rw [run_bind_ok (read_ok hg)]
    cases o with
    | none => rfl
    | some m =>
      obtain ⟨hk, hm⟩ := metaAt_of_mvccGetMeta hg
      simp only [if_pos fun hid => h ⟨hk, m, hm, hid⟩]
      rfl

lemma mvccResolveIntent_unfound [Backend]
    (h : ¬ (i.key ≠ [] ∧ ∃ m, metaAt s.eng i.key = some m ∧ m.transactionID = i.txn.id)) :
    stateAfter (mvccResolveIntent i) s = s := by
  rcases mvccResolveIntent_unfound_run h with hs | ⟨e, -, hs⟩
  · exact stateAfter_ok hs
  · exact stateAfter_error hs

/-- Moving the version leaves the metadata that has just been written. -/
lemma get_meta_update [Backend] {txn : Transaction} {deleted : Bool} (hk : k ≠ [])
    (txn' : Transaction)
    (a b : ℕ) (s : St) :
    (stateAfter (do let _ ← mvccPutMeta k txn deleted a b; mvccResolveIntentUpdate k txn' m)
      s).eng.get (newMVCCKey k) = some (.metaData ⟨txn.id, txn.timestamp, deleted⟩) := by
  obtain ⟨x, s', hs', he⟩ := mvccPutMeta_eng hk txn deleted a b s
  rw [stateAfter_congr (run_bind_ok hs'),
    (only_mvccResolveIntentUpdate k txn' m).after s' (metaKey_notMem k), he, OrdMap.get_put,
    if_pos rfl]

lemma pending_meta [Backend] (hk : k ≠ []) (txn : Transaction) (hlt : m.timestamp < txn.timestamp)
    (a b : ℕ) : (stateAfter (mvccResolveIntentPending k txn m a b) s).eng.get (newMVCCKey k) =
      some (.metaData ⟨txn.id, txn.timestamp, m.deleted⟩) := by
  rw [mvccResolveIntentPending, if_pos ((Timestamp.large_iff _ _).mpr hlt)]
  exact get_meta_update hk txn a b s

lemma pending_stay [Backend] (txn : Transaction) (hlt : ¬ m.timestamp < txn.timestamp) (a b : ℕ) :
    stateAfter (mvccResolveIntentPending k txn m a b) s = s := by
  rw [mvccResolveIntentPending, if_neg fun h => hlt ((Timestamp.large_iff _ _).mp h)]
  rfl

lemma commit_meta [Backend] (hk : k ≠ []) (txn : Transaction) (a b : ℕ) :
    (stateAfter (mvccResolveIntentCommit k txn m a b) s).eng.get (newMVCCKey k) =
      some (.metaData ⟨txn.id, txn.timestamp, m.deleted⟩) := by
  unfold mvccResolveIntentCommit
  split_ifs
  · exact get_meta_update hk txn a b s
  · obtain ⟨x, s', hs', he⟩ := mvccPutMeta_eng hk txn m.deleted a b s
    rw [stateAfter_congr (run_bind_ok hs')]
    show s'.eng.get _ = _
    rw [he, OrdMap.get_put, if_pos rfl]

/-- At the intent's own timestamp a commit writes the metadata only. -/
lemma commit_stay [Backend] (hk : k ≠ []) (txn : Transaction) (heq : txn.timestamp = m.timestamp)
    (a b : ℕ) : (stateAfter (mvccResolveIntentCommit k txn m a b) s).eng =
      s.eng.put (newMVCCKey k) (.metaData ⟨txn.id, txn.timestamp, m.deleted⟩) := by
  have hlt : ¬ txn.timestamp.large m.timestamp := by simp [Timestamp.large_iff, heq]
  obtain ⟨x, s', hs', he⟩ := mvccPutMeta_eng hk txn m.deleted a b s
  rw [mvccResolveIntentCommit, if_neg hlt, stateAfter_congr (run_bind_ok hs')]
  exact he

/-- An abort clears the version of the intent and leaves `abortedMeta`. -/
lemma abort_get [Backend] (hk : k ≠ []) (hm : metaAt s.eng k = some m) (txn : Transaction)
    (hid : txn.id = []) (a b : ℕ) (x : MVCCKey) :
    (stateAfter (mvccResolveIntentAbort k txn m a b) s).eng.get x =
      if x = newMVCCKey k then
        (abortedMeta (erase s.eng (newMVCCTimeKey k m.timestamp)) k m).map .metaData
      else (erase s.eng (newMVCCTimeKey k m.timestamp)).get x := by
  have hclear : mvccClear k m.timestamp s =
      .ok () ⟨erase s.eng (newMVCCTimeKey k m.timestamp), s.stats⟩ := rfl
  have hsame : ∀ y, (if y = newMVCCKey k then some (Entry.metaData m)
      else (erase s.eng (newMVCCTimeKey k m.timestamp)).get y) =
        (erase s.eng (newMVCCTimeKey k m.timestamp)).get y := fun y => by
    split_ifs with hy
    · rw [hy, get_erase_ne _ (newMVCCKey_ne_timeKey _ _ _), get_of_metaAt hm]
    · rfl
  rw [mvccResolveIntentAbort, stateAfter_congr (run_bind_ok hclear)]
  generalize erase s.eng (newMVCCTimeKey k m.timestamp) = eng at hsame
  have hstats : updateRangeStats a b 0 0 ⟨eng, s.stats⟩ =
      .ok () ⟨eng, s.stats.update a b 0 0⟩ := rfl
  rw [stateAfter_congr (run_bind_ok hstats)]
  generalize s.stats.update a b 0 0 = stats
  unfold abortedMeta
  generalize hscan : scan eng (bytesNext (newMVCCTimeKey k m.timestamp))
    (newMVCCKey (bytesNext k)) 1 = kvs
  have hread : M.read (fun eng => .ok (scan eng (bytesNext (newMVCCTimeKey k m.timestamp))
      (newMVCCKey (bytesNext k)) 1)) ⟨eng, stats⟩ = .ok kvs ⟨eng, stats⟩ := read_ok (by rw [hscan])
  rw [stateAfter_congr (run_bind_ok hread)]
  cases kvs with
  | nil =>
    show (erase eng (newMVCCKey k)).get x = _
    unfold erase
    cases Backend.clears with
    | true =>
      simp only [if_true, OrdMap.get_clear, Option.map_none]
      split_ifs <;> rfl
    | false => simp only [Bool.false_eq_true, if_false, Option.map_some, hsame]
  | cons hd tl =>
    obtain ⟨y, e⟩ := hd
    cases hd : decodeMVCCKey y with
    | error msg =>
      have hdec : M.read (fun _ => (decodeMVCCKey y).mapError fun _ => Err.unmarshalData)
          ⟨eng, stats⟩ = .error .unmarshalData ⟨eng, stats⟩ := read_error (by rw [hd]; rfl)
      simp only
      rw [stateAfter, run_bind_error hdec]
      simp only [olderMeta, hd, Option.getD_none, Option.map_some, hsame]
    | ok d =>
      obtain ⟨k', t, hasTs⟩ := d
      have hdec : M.read (fun _ => (decodeMVCCKey y).mapError fun _ => Err.unmarshalData)
          ⟨eng, stats⟩ = .ok (k', t, hasTs) ⟨eng, stats⟩ := read_ok (by rw [hd]; rfl)
      simp only
      rw [stateAfter_congr (run_bind_ok hdec)]
      rcases e with m' | ⟨deleted, _ | v⟩ | t' | b'
      case value.some =>
        obtain ⟨z, s', hs', he⟩ := mvccPutMeta_eng hk { txn with timestamp := t }
          (decide (v.bytes.length = 0)) a b ⟨eng, stats⟩
        simp only [olderMeta, hd, Option.getD_some, Option.map_some]
        rw [stateAfter_congr (run_bind_ok hs')]
        show s'.eng.get x = _
        rw [he, OrdMap.get_put, hid]
        split_ifs <;> rfl
      all_goals
        simp only [olderMeta, hd, Option.getD_none, Option.map_some, hsame]
        rfl

lemma Acts.changes [Backend] (h : Acts s.eng i) :
    ∃ x ∈ entryKeys i.key, (stateAfter (mvccResolveIntent i) s).eng.get x ≠ s.eng.get x := by
  obtain ⟨hk, m, hm, hid, hact⟩ := h
  obtain ⟨a, b, hrun⟩ := mvccResolveIntent_found hk hm hid
  have hget := get_of_metaAt hm
  rw [stateAfter_congr hrun]
  cases hst : i.txn.status with
  | pending =>
    rw [hst] at hact
    refine ⟨_, metaKey_mem i.key, fun h => ?_⟩
    rw [pending_meta hk { id := i.txn.id, timestamp := i.txn.timestamp } hact, hget,
      Option.some.injEq, Entry.metaData.injEq] at h
    exact hact.ne (congrArg MVCCMetadata.timestamp h).symm
  | committed =>
    rw [hst] at hact
    refine ⟨_, metaKey_mem i.key, fun h => hact ?_⟩
    rw [commit_meta hk, hget, Option.some.injEq, Entry.metaData.injEq] at h
    exact h.symm
  | aborted =>
    rw [hst] at hact
    rcases hact with hver | hmeta
    · refine ⟨_, versionKeys_subset _ (timeKey_mem i.key m.timestamp), fun h => hver ?_⟩
      rw [abort_get hk hm _ rfl, if_neg (newMVCCTimeKey_ne_key _ _ _)] at h
      exact h
    · refine ⟨_, metaKey_mem i.key, fun h => hmeta ?_⟩
      rw [abort_get hk hm _ rfl, if_pos rfl, hget] at h
      obtain ⟨m', hm', he⟩ := Option.map_eq_some_iff.mp h
      cases he
      exact hm'

lemma same_of_not_acts [Backend] (h : ¬ Acts s.eng i) (x : MVCCKey) :
    (stateAfter (mvccResolveIntent i) s).eng.get x = s.eng.get x := by
  by_cases hf : i.key ≠ [] ∧ ∃ m, metaAt s.eng i.key = some m ∧ m.transactionID = i.txn.id
  · obtain ⟨hk, m, hm, hid⟩ := hf
    obtain ⟨a, b, hrun⟩ := mvccResolveIntent_found hk hm hid
    have hget := get_of_metaAt hm
    have hno : ¬ _ := fun hact => h ⟨hk, m, hm, hid, hact⟩
    rw [stateAfter_congr hrun]
    cases hst : i.txn.status with
    | pending =>
      rw [hst] at hno
      rw [pending_stay { id := i.txn.id, timestamp := i.txn.timestamp } hno]
    | committed =>
      rw [hst] at hno
      have heq := not_not.mp hno
      rw [commit_stay hk { timestamp := i.txn.timestamp }
        (congrArg MVCCMetadata.timestamp heq).symm, OrdMap.get_put]
      split_ifs with hx
      · rw [hx, hget, heq]
      · rfl
    | aborted =>
      rw [hst] at hno
      simp only [not_or, not_not] at hno
      rw [abort_get hk hm _ rfl, hno.2]
      split_ifs with hx
      · rw [hx, hget]
        rfl
      · by_cases hx' : x = newMVCCTimeKey i.key m.timestamp
        · rw [hx', hno.1]
        · exact get_erase_ne _ hx'
  · rw [mvccResolveIntent_unfound hf]

end Acts

/-! ### The loop over the intents -/

/-- One turn of the loop: an error is passed over, a panic ends it. -/
def resolveStep [Backend] (s : St) (i : Intent) : Option St :=
  match mvccResolveIntent i s with
  | .ok _ s => some s
  | .error (.panic _) _ => none
  | .error _ s => some s

section Loop

variable [Backend] {s s' : St} {i : Intent} {l : List Intent} {K : Set Key}

lemma resolve_cons_some (h : resolveStep s i = some s') :
    stateAfter (mvccResolveIntent i) s = s' ∧
      stateAfter (mvccResolveWriteIntent (i :: l)) s =
        stateAfter (mvccResolveWriteIntent l) s' := by
  simp only [resolveStep] at h
  simp only [stateAfter, mvccResolveWriteIntent]
  cases hrun : mvccResolveIntent i s with
  | ok a s₁ =>
    simp only [hrun, Option.some.injEq] at h ⊢
    exact ⟨h, by rw [h]⟩
  | error e s₁ =>
    rw [hrun] at h
    cases e <;> first | (cases h; done) | (cases h; exact ⟨rfl, rfl⟩)

lemma resolve_cons_none (h : resolveStep s i = none) :
    stateAfter (mvccResolveWriteIntent (i :: l)) s = stateAfter (mvccResolveIntent i) s := by
  simp only [resolveStep] at h
  simp only [stateAfter, mvccResolveWriteIntent]
  cases hrun : mvccResolveIntent i s with
  | ok a s₁ =>
    rw [hrun] at h
    cases h
  | error e s₁ =>
    rw [hrun] at h
    cases e <;> first | (cases h; done) | rfl

/-- The loop touches the entries of the listed keys only. -/
lemma resolve_frame {x : MVCCKey} (hx : ∀ i ∈ l, x ∉ entryKeys i.key) (s : St) :
    (stateAfter (mvccResolveWriteIntent l) s).eng.get x = s.eng.get x := by
  induction l generalizing s with
  | nil => rfl
  | cons i l ih =>
    have hi := (only_mvccResolveIntent i).after s (hx i List.mem_cons_self)
    cases hstep : resolveStep s i with
    | none => rw [resolve_cons_none hstep, hi]
    | some s' =>
      obtain ⟨hs', hrest⟩ := resolve_cons_some (l := l) hstep
      rw [hrest, ih (fun j hj => hx j (List.mem_cons_of_mem i hj)) s', ← hs', hi]

/-- `eng'` has the entries of every key outside `K` as `eng` has them. -/
def SameOff (K : Set Key) (eng eng' : Engine) : Prop :=
  ∀ k ∉ K, ∀ x ∈ entryKeys k, eng'.get x = eng.get x

omit [Backend] in
lemma SameOff.trans {e e' e'' : Engine} (h : SameOff K e e') (h' : SameOff K e' e'') :
    SameOff K e e'' := fun k hk x hx => (h' k hk x hx).trans (h k hk x hx)

/-- One turn stays within `K` exactly when it does not act or its key is in `K`. -/
lemma resolve_one_sameOff_iff (i : Intent) (s : St) :
    SameOff K s.eng (stateAfter (mvccResolveIntent i) s).eng ↔ (Acts s.eng i → i.key ∈ K) := by
  constructor
  · intro h hact
    by_contra hK
    obtain ⟨x, hx, hne⟩ := hact.changes
    exact hne (h i.key hK x hx)
  · intro h k hk x hx
    by_cases hact : Acts s.eng i
    · refine (only_mvccResolveIntent i).after s fun hxi => hk ?_
      rw [entryKeys_inj hx hxi]
      exact h hact
    · exact same_of_not_acts hact x

/-- **A list that names each key once stays within `K`** exactly when every intent that acts in
its turn is on a key of `K`. -/
theorem resolve_sameOff_iff (hnd : (l.map Intent.key).Nodup) (s : St) :
    SameOff K s.eng (stateAfter (mvccResolveWriteIntent l) s).eng ↔
      Along resolveStep (fun s i => Acts s.eng i → i.key ∈ K) s l := by
  induction l generalizing s with
  | nil => exact ⟨fun _ => trivial, fun _ _ _ _ _ => rfl⟩
  | cons i l ih =>
    obtain ⟨hni, hnd⟩ := List.nodup_cons.mp hnd
    have hone := resolve_one_sameOff_iff (K := K) i s
    cases hstep : resolveStep s i with
    | none =>
      rw [resolve_cons_none hstep, hone]
      exact ⟨fun h => ⟨h, fun s' hs' => by simp [hstep] at hs'⟩, And.left⟩
    | some s' =>
      obtain ⟨hs', hrest⟩ := resolve_cons_some (l := l) hstep
      have htail := ih hnd s'
      rw [hs'] at hone
      rw [hrest]
      constructor
      · intro h
        -- the later turns are on other keys, so what this one changes stays changed
        have hi : SameOff K s.eng s'.eng := by
          intro k hk x hx
          by_cases hki : k = i.key
          · subst hki
            rw [← h _ hk x hx, resolve_frame fun j hj hxj => hni ?_]
            exact List.mem_map.mpr ⟨j, hj, (entryKeys_inj hx hxj).symm⟩
          · rw [← hs']
            exact (only_mvccResolveIntent i).after s fun hxi => hki (entryKeys_inj hx hxi)
        refine ⟨hone.mp hi, fun s'' hs'' => ?_⟩
        obtain rfl : s' = s'' := Option.some.inj (hstep.symm.trans hs'')
        exact htail.mp fun k hk x hx => (h k hk x hx).trans (hi k hk x hx).symm
      · intro h
        exact (hone.mpr h.1).trans (htail.mpr (h.2 s' hstep))

end Loop

/-! ### Pushes -/

/-- The push has a record `pushee` to change: it asks for a change, and `MVCCPutTxn` grants it. -/
def Pushes (eng : Engine) (pushee : Transaction) (latest : Timestamp) (pushType : PushTxnType)
    (pusher : Transaction) : Prop :=
  ∃ req changeType stored r, pushRequest pushee latest pushType pusher = some (req, changeType) ∧
    mvccGetTxn eng pushee.id = .ok stored ∧ nextTxn stored req changeType = .ok (some r)

section Push

variable {s : St} {K : Set Key}

/-- A push that is granted stores another record than it finds. -/
lemma nextTxn_push_ne {t req r : Transaction} {changeType : TxnChangeType}
    (hct : changeType = .pushAbort ∧ req.status = .aborted ∨
      changeType = .pushTimestamp ∧ req.status = .pending)
    (h : nextTxn (some t) req changeType = .ok (some r)) : r ≠ t := by
  have hp : t.status = .pending := by
    by_contra hp
    obtain ⟨e, he⟩ := nextTxn_decided req changeType hp
    rw [he] at h
    cases h
  rintro rfl
  rcases hct with ⟨rfl, hst⟩ | ⟨rfl, hst⟩
  · have hr : r.status = req.status := by
      by_cases hlt : r.timestamp < req.timestamp
      · simp [nextTxn, hp, hlt] at h
        exact (congrArg Transaction.status h).symm
      · simp [nextTxn, hp, hlt] at h
        exact (congrArg Transaction.status h).symm
    rw [hp, hst] at hr
    cases hr
  · by_cases hlt : r.timestamp < req.timestamp
    · have hle : ¬ req.timestamp < r.timestamp := not_lt.mpr hlt.le
      simp [nextTxn, hp, hlt, hle] at h
      exact hlt.ne (congrArg Transaction.timestamp h).symm
    · simp [nextTxn, hp, hlt] at h

lemma get_of_mvccGetTxn {eng : Engine} {id : Key} {stored : Option Transaction}
    (h : mvccGetTxn eng id = .ok stored) : eng.get (newMVCCKey id) = stored.map .txn := by
  unfold mvccGetTxn at h
  split_ifs at h
  split at h <;> cases h <;> assumption

/-- **A push stays within `K`** exactly when the record it finds is of an ID in `K`, or it has
nothing to change on it. -/
theorem push_sameOff_iff (key : Key) (latest : Timestamp) (pushType : PushTxnType)
    (pusher : Transaction) (s : St) :
    SameOff K s.eng (stateAfter (processPushTransaction key latest pushType pusher) s).eng ↔
      ∀ p, mvccGetTxn s.eng key = .ok (some p) → Pushes s.eng p latest pushType pusher →
        p.id ∈ K := by
  rw [processPushTransaction_state]
  have hsame : SameOff K s.eng s.eng := fun _ _ _ _ => rfl
  match hg : mvccGetTxn s.eng key with
  | .error e => simpa using hsame
  | .ok none => simpa using hsame
  | .ok (some p) =>
    simp only
    cases hreq : pushRequest p latest pushType pusher with
    | none =>
      refine ⟨fun _ p' hp' => ?_, fun _ => hsame⟩
      cases hp'
      rintro ⟨req, changeType, stored, r, hreq', -⟩
      rw [hreq] at hreq'
      cases hreq'
    | some x =>
      obtain ⟨req, changeType⟩ := x
      obtain ⟨hid, hct⟩ := pushRequest_spec hreq
      have hbegin : changeType ≠ .beginTxn := by
        rcases hct with ⟨rfl, -⟩ | ⟨rfl, -⟩ <;> simp
      simp only
      constructor
      · rintro h p' ⟨⟩ ⟨req', changeType', stored, r, hreq', hget, hn⟩
        obtain ⟨rfl, rfl⟩ : req = req' ∧ changeType = changeType' := by
          simpa [hreq] using hreq'
        have hlook : Looked s req.id changeType stored := by
          rw [Looked, if_neg hbegin, hid, hget]
        have hrun := mvccPutTxn_run req changeType false hlook
        rw [hn] at hrun
        obtain ⟨s', hs', he⟩ := hrun
        by_contra hK
        have hx := h p.id hK _ (metaKey_mem p.id)
        rw [stateAfter, hs', he, hid, OrdMap.get_put, if_pos rfl, get_of_mvccGetTxn hget] at hx
        obtain ⟨t, rfl, ht⟩ := Option.map_eq_some_iff.mp hx.symm
        cases ht
        exact nextTxn_push_ne hct hn rfl
      · intro h k hk x hx
        rcases mvccPutTxn_effect s req changeType false with he | ⟨stored, r, hlook, hn, he⟩
        · rw [he]
        · have hpush : Pushes s.eng p latest pushType pusher := by
            rw [Looked, if_neg hbegin, hid] at hlook
            exact ⟨req, changeType, stored, r, hreq, hlook, hn⟩
          have hne : x ≠ newMVCCKey req.id := by
            rintro rfl
            refine hk ?_
            rw [entryKeys_inj hx (metaKey_mem req.id), hid]
            exact h p rfl hpush
          rw [he, OrdMap.get_put, if_neg hne]

end Push

/-! ### Requests -/

/-- The write requests a client builds (`client/node_api.go`, `client/batch.go`). The keys of one
resolution come from a map, so none is listed twice. -/
inductive Call
  | put (txn : Transaction) (key : Key) (value : Value)
  | beginTransaction (txn : Transaction)
  | endTransaction (txn : Transaction) (commit : Bool)
  | heartbeat (txn : Transaction)
  | pushTxn (pushType : PushTxnType) (key : Key) (txn : Transaction) (latestTimestamp : Timestamp)
  | resolveIntent (txn : Transaction) (key : Key) (keys : List Key) (nodup : (key :: keys).Nodup)

namespace Call

def intents (txn : Transaction) (keys : List Key) : List Intent := keys.map (⟨·, txn⟩)

/-- The request as it is sent to the range `id`: its header names one key. -/
def request (id : RangeID) : Call → Request
  | .put txn key value =>
    .put { key, timestamp := txn.timestamp, rangeID := id, txn, value }
  | .beginTransaction txn =>
    .beginTransaction { key := txn.id, timestamp := txn.timestamp, rangeID := id, txn }
  | .endTransaction txn commit =>
    .endTransaction { key := txn.id, timestamp := txn.timestamp, rangeID := id, txn, commit }
  | .heartbeat txn =>
    .heartbeatTransaction { key := txn.id, timestamp := txn.timestamp, rangeID := id, txn }
  | .pushTxn pushType key txn latestTimestamp =>
    .pushTransaction { key, timestamp := txn.timestamp, rangeID := id, txn,
                       pusheeKey := key, pushType, latestTimestamp }
  | .resolveIntent txn key keys _ =>
    .resolveIntent { key, timestamp := txn.timestamp, rangeID := id, txn,
                     intents := intents txn (key :: keys) }

/-- No key or transaction ID outside the range is acted upon: each listed intent that acts in its
turn is on a key of the range, and a record that a push changes is of an ID of the range. -/
def StaysIn [Backend] (d : RangeDescriptor) (s : St) : Call → Prop
  | .resolveIntent txn key keys _ =>
    Along resolveStep (fun s i => Acts s.eng i → d.Covers i.key) s (intents txn (key :: keys))
  | .pushTxn pushType key txn latestTimestamp =>
    ∀ p, mvccGetTxn s.eng key = .ok (some p) → Pushes s.eng p latestTimestamp pushType txn →
      d.Covers p.id
  | _ => True

end Call

/-- Every key or transaction ID whose entries the command creates, changes or removes is one of
the replica's range. -/
def WritesOwn [Backend] (r : Replica) (request : Request) (s : Store) : Prop :=
  ∀ k x, x ∈ entryKeys k →
    (stateAfter (r.executeCmd request) s).eng.get x ≠ s.eng.get x → r.rangeDesc.Covers k

section Requests

variable [Backend] {r : Replica} {s : Store} {request : Request}

lemma writesOwn_iff : WritesOwn r request s ↔
    SameOff {k | r.rangeDesc.Covers k} s.eng (stateAfter (r.executeCmd request) s).eng := by
  constructor
  · intro h k hk x hx
    by_contra hne
    exact hk (h k x hx hne)
  · intro h k x hx hne
    by_contra hk
    exact hne (h k hk x hx)

/-- A command that passes the check on its header key changes the engine as it does alone. -/
lemma executeCmd_eng {α : Type} {m : M α} {f : α → Response}
    (hd : r.dispatch request = do let a ← r.onEngine m; return f a)
    (hkey : r.validateKeyRange request.header.key = true) :
    (stateAfter (r.executeCmd request) s).eng =
      (stateAfter m ⟨s.eng, s.rangeStats r.rangeID⟩).eng := by
  rw [stateAfter, executeCmd_run, if_pos hkey, hd, stateAfter]
  cases hm : m ⟨s.eng, s.rangeStats r.rangeID⟩ with
  | ok a st =>
    have hrun : r.onEngine m s = .ok a (r.keep s st) := by rw [Replica.onEngine, hm]
    rw [run_bind_ok hrun]
    rfl
  | error e st =>
    have hrun : r.onEngine m s = .error e (r.keep s st) := by rw [Replica.onEngine, hm]
    rw [run_bind_error hrun]
    rfl

lemma writesOwn_of_rejected (hkey : ¬ r.validateKeyRange request.header.key = true) :
    WritesOwn r request s := by
  intro k x _ hne
  rw [stateAfter, executeCmd_run, if_neg hkey] at hne
  exact absurd rfl hne

/-- A command that keeps to the entries of the header key writes its own range. -/
lemma writesOwn_of_only {α : Type} {m : M α} {f : α → Response}
    (hd : r.dispatch request = do let a ← r.onEngine m; return f a)
    (hkey : r.validateKeyRange request.header.key = true)
    (hm : Only (entryKeys request.header.key) m) : WritesOwn r request s := by
  intro k x hx hne
  rw [executeCmd_eng hd hkey] at hne
  have hmem : x ∈ entryKeys request.header.key := by
    by_contra hx'
    exact hne (hm.after _ hx')
  rw [entryKeys_inj hx hmem]
  exact (validateKeyRange_iff r _).mp hkey

/-- **When a range writes its own keys only.** -/
theorem writesOwn_call_iff (r : Replica) (id : RangeID) (s : Store) (call : Call) :
    WritesOwn r (call.request id) s ↔
      (r.validateKeyRange (call.request id).header.key = true →
        call.StaysIn r.rangeDesc ⟨s.eng, s.rangeStats r.rangeID⟩) := by
  by_cases hkey : r.validateKeyRange (call.request id).header.key = true
  · rw [forall_prop_of_true hkey]
    cases call with
    | put txn key value =>
      exact iff_of_true (writesOwn_of_only (f := fun _ => .put) rfl hkey (only_put _)) trivial
    | beginTransaction txn =>
      exact iff_of_true (writesOwn_of_only (f := fun _ => .beginTransaction txn) rfl hkey
        (only_record _ _ _)) trivial
    | endTransaction txn commit =>
      exact iff_of_true (writesOwn_of_only (f := fun _ => .endTransaction) rfl hkey
        (only_record { txn with status := if commit then .committed else .aborted } _ _)) trivial
    | heartbeat txn =>
      exact iff_of_true (writesOwn_of_only (f := .heartbeatTransaction) rfl hkey
        ((only_heartbeatTransaction txn).mono (metaKey_subset _))) trivial
    | pushTxn pushType key txn latest =>
      rw [writesOwn_iff, executeCmd_eng (f := .pushTransaction) rfl hkey]
      exact push_sameOff_iff key latest pushType txn _
    | resolveIntent txn key keys hnd =>
      rw [writesOwn_iff, executeCmd_eng (f := fun _ => .resolveIntent) rfl hkey]
      refine resolve_sameOff_iff ?_ _
      simpa [Call.intents, Function.comp_def] using hnd
  · exact ⟨fun _ h => absurd h hkey, fun _ => writesOwn_of_rejected hkey⟩

end Requests

/-! ### A list that reaches into another range -/

section Neighbour

open Split

attribute [local instance] Slices.twoItems Backend.badger

def writer : Transaction := { id := [1, 7], timestamp := ⟨5, 0⟩ }

/-- A transaction writes `b` and `x`, then the range is split at `m`. -/
def divided : State :=
  [⟨1, (Call.put writer [98] { bytes := [1] }).request 1⟩,
    ⟨1, (Call.put writer [120] { bytes := [2] }).request 1⟩,
    splitAt [109] 2, updateTo [109]].foldl State.apply ⟨whole, [], fun _ => none⟩

def leftRange : Replica := ⟨2, ⟨2, [97], [109], []⟩⟩

/-- The commit resolves both keys under the range that `b` now belongs to, and that range
rewrites the metadata of `x`. -/
theorem neighbour_written :
    divided.store.replicas 2 = some leftRange ∧ ¬ leftRange.rangeDesc.Covers [120] ∧
      ¬ WritesOwn leftRange
        ((Call.resolveIntent { writer with status := .committed } [98] [[120]]
          (by decide)).request 2) divided.store := by
  have hout : ¬ leftRange.rangeDesc.Covers [120] := by
    rw [← validateKeyRange_iff]
    decide
  refine ⟨by decide +kernel, hout, fun h => hout ?_⟩
  exact h [120] (newMVCCKey [120]) (metaKey_mem _) (by decide +kernel)

end Neighbour

end Ancestor
