import Ancestor.Versioned

/-!
The resolution of intents on badger (`storage/engine/badger.go`, `storage/engine/mvcc.go`).

`Clear` deletes in a transaction that nothing commits. What a resolution clears stays: the old
version of an intent that is moved, the version of one that is aborted, and the metadata of a key
that has no older version. An abort is left with the metadata it writes, and that has the
timestamp of the key which the scan has kept, not of the version below the intent.
-/

namespace Ancestor

open M Hoare Steps

variable [Slices]

attribute [local instance] Backend.badger

@[simp] lemma dropMoved_badger (eng : Engine) (req : PutRequest) (o : Option MVCCMetadata) :
    dropMoved eng req o = eng := by
  cases o with
  | none => rfl
  | some m => exact ite_self _

/-! ### One turn -/

/-- The metadata that an abort writes: read off the slices that its scan has kept of the entry
below the intent. -/
def uncovered (eng : Engine) (k : Key) (m : MVCCMetadata) : Option MVCCMetadata :=
  match scan eng (bytesNext (newMVCCTimeKey k m.timestamp)) (newMVCCKey (bytesNext k)) 1 with
  | [] => none
  | (x, e) :: _ => olderMeta x e

/-- What the resolution of the intent `m`, whose version is `v`, stores. -/
def resolved (eng : Engine) (i : Intent) (m : MVCCMetadata) (v : Value) : Engine :=
  let moved (id : Key) :=
    (eng.put (newMVCCKey i.key) (.metaData ⟨id, i.txn.timestamp, m.deleted⟩)).put
      (newMVCCTimeKey i.key i.txn.timestamp) (.value { value := some v })
  match i.txn.status with
  | .pending => if m.timestamp < i.txn.timestamp then moved i.txn.id else eng
  | .committed =>
    if m.timestamp < i.txn.timestamp then moved []
    else eng.put (newMVCCKey i.key) (.metaData ⟨[], i.txn.timestamp, m.deleted⟩)
  | .aborted =>
    match uncovered eng i.key m with
    | some m' => eng.put (newMVCCKey i.key) (.metaData m')
    | none => eng

section Turn

variable {s : St} {eng : Engine} {i : Intent} {k : Key} {m m' : MVCCMetadata} {v : Value}

lemma abortedMeta_badger : abortedMeta eng k m = some ((uncovered eng k m).getD m) := by
  unfold abortedMeta uncovered
  cases scan eng (bytesNext (newMVCCTimeKey k m.timestamp)) (newMVCCKey (bytesNext k)) 1 <;> rfl

lemma uncovered_bare (h : uncovered eng k m = some m') : m'.transactionID = [] := by
  unfold uncovered at h
  split at h
  · cases h
  · unfold olderMeta at h
    split at h <;> cases h
    rfl

/-- An abort fails, if it does, at the key it has kept. -/
lemma mvccResolveIntentAbort_badger (hk : k ≠ []) (h : Versioned s.eng) (txn : Transaction)
    (a b : ℕ) : (∃ s', mvccResolveIntentAbort k txn m a b s = .ok () s') ∨
      ∃ s', mvccResolveIntentAbort k txn m a b s = .error .unmarshalData s' := by
  simp only [mvccResolveIntentAbort, mvccClear, clearEng, updateRangeStats, modify, modifyGet,
    MonadStateOf.modifyGet, bind, EStateM.bind, EStateM.modifyGet, M.read, erase_badger]
  cases hscan : scan s.eng (bytesNext (newMVCCTimeKey k m.timestamp))
    (newMVCCKey (bytesNext k)) 1 with
  | nil => exact .inl ⟨_, rfl⟩
  | cons p l =>
    obtain ⟨x, e⟩ := p
    obtain ⟨u, w, -, rfl, -⟩ := scan_below h hscan
    cases hd : decodeMVCCKey x with
    | error msg =>
      right
      simp only [hd, Except.mapError, EStateM.bind, M.read]
      exact ⟨_, rfl⟩
    | ok d =>
      obtain ⟨y, s', hs', -⟩ := mvccPutMeta_eng hk { txn with timestamp := d.2.1 }
        (decide (w.bytes.length = 0)) a b ⟨s.eng, s.stats.update a b 0 0⟩
      left
      simp only [hd, Except.mapError, EStateM.bind, M.read, hs']
      exact ⟨s', rfl⟩

lemma abort_badger (hk : k ≠ []) (hm : metaAt s.eng k = some m)
    (txn : Transaction) (hid : txn.id = []) (a b : ℕ) :
    (stateAfter (mvccResolveIntentAbort k txn m a b) s).eng =
      match uncovered s.eng k m with
      | some m' => s.eng.put (newMVCCKey k) (.metaData m')
      | none => s.eng := by
  have hget := abort_get hk hm txn hid a b
  simp only [erase_badger, abortedMeta_badger, Option.map_some] at hget
  cases hun : uncovered s.eng k m with
  | some m' =>
    rw [hun] at hget
    exact eq_put_of_get hget
  | none =>
    rw [hun] at hget
    rw [eq_put_of_get hget]
    exact put_same (get_of_metaAt hm)

/-- **One turn of the loop on badger**, on an intent that is found with its version. -/
theorem resolveStep_badger (h : Versioned s.eng) (hk : i.key ≠ [])
    (hm : metaAt s.eng i.key = some m) (hid : m.transactionID = i.txn.id)
    (hv : verAt s.eng i.key m.timestamp = some v) :
    ∃ s', resolveStep s i = some s' ∧ s'.eng = resolved s.eng i m v := by
  obtain ⟨a, b, hrun⟩ := mvccResolveIntent_found hk hm hid
  unfold resolved
  cases hst : i.txn.status with
  | pending =>
    rw [hst] at hrun
    simp only [mvccResolveIntentPending, Timestamp.large_iff] at hrun
    by_cases hlt : m.timestamp < i.txn.timestamp
    · obtain ⟨s', hs', he⟩ := putMeta_update_eng hk h hv
        { id := i.txn.id, timestamp := i.txn.timestamp } m.deleted a b
      rw [if_pos hlt] at hrun
      simp only [if_pos hlt]
      exact ⟨s', resolveStep_of_ok (hrun.trans hs'), he⟩
    · rw [if_neg hlt] at hrun
      simp only [if_neg hlt]
      exact ⟨s, resolveStep_of_ok hrun, rfl⟩
  | committed =>
    rw [hst] at hrun
    simp only [mvccResolveIntentCommit, Timestamp.large_iff] at hrun
    by_cases hlt : m.timestamp < i.txn.timestamp
    · obtain ⟨s', hs', he⟩ := putMeta_update_eng hk h hv
        { timestamp := i.txn.timestamp } m.deleted a b
      simp only [if_pos hlt] at hrun ⊢
      exact ⟨s', resolveStep_of_ok (hrun.trans hs'), he⟩
    · obtain ⟨x, s', hs', he⟩ := mvccPutMeta_eng hk { timestamp := i.txn.timestamp } m.deleted a b s
      simp only [if_neg hlt] at hrun ⊢
      rw [run_bind_ok hs'] at hrun
      exact ⟨s', resolveStep_of_ok hrun, he⟩
  | aborted =>
    rw [hst] at hrun
    have heng := abort_badger hk hm { timestamp := i.txn.timestamp } rfl a b
    rcases mvccResolveIntentAbort_badger (m := m) hk h { timestamp := i.txn.timestamp } a b with
      ⟨s', hs'⟩ | ⟨s', hs'⟩
    · rw [stateAfter_ok hs'] at heng
      exact ⟨s', resolveStep_of_ok (hrun.trans hs'), heng⟩
    · rw [stateAfter_error hs'] at heng
      exact ⟨s', by rw [resolveStep, hrun.trans hs'], heng⟩

/-- The metadata that the resolution of the intent `m` leaves. -/
def resolvedTo (eng : Engine) (i : Intent) (m : MVCCMetadata) : MVCCMetadata :=
  match i.txn.status with
  | .pending =>
    if m.timestamp < i.txn.timestamp then ⟨i.txn.id, i.txn.timestamp, m.deleted⟩ else m
  | .committed => ⟨[], i.txn.timestamp, m.deleted⟩
  | .aborted => (uncovered eng i.key m).getD m

lemma metaAt_resolved (hm : metaAt eng i.key = some m) :
    metaAt (resolved eng i m v) i.key = some (resolvedTo eng i m) := by
  unfold resolved resolvedTo
  cases i.txn.status with
  | pending =>
    simp only
    split_ifs
    · simp
    · exact hm
  | committed =>
    simp only
    split_ifs <;> simp
  | aborted =>
    cases uncovered eng i.key m with
    | none => exact hm
    | some m' => simp

lemma metaAt_resolved_ne (hk : k ≠ i.key) : metaAt (resolved eng i m v) k = metaAt eng k := by
  unfold resolved
  cases i.txn.status with
  | pending =>
    simp only
    split_ifs <;> simp [hk]
  | committed =>
    simp only
    split_ifs <;> simp [hk]
  | aborted =>
    cases uncovered eng i.key m <;> simp [hk]

/-- Every version is still there, with the one that a move has added. -/
lemma verAt_resolved (t : Timestamp) :
    verAt (resolved eng i m v) i.key t = if i.txn.status ≠ .aborted ∧
      m.timestamp < i.txn.timestamp ∧ t = i.txn.timestamp then some v else verAt eng i.key t := by
  unfold resolved
  cases i.txn.status with
  | pending =>
    simp only
    split_ifs <;> simp_all
  | committed =>
    simp only
    split_ifs <;> simp_all
  | aborted =>
    simp only
    cases uncovered eng i.key m with
    | none => simp
    | some m' => simp

lemma Versioned.resolved (h : Versioned eng) (i : Intent) (m : MVCCMetadata) (v : Value) :
    Versioned (resolved eng i m v) := by
  unfold Ancestor.resolved
  cases i.txn.status with
  | pending =>
    simp only
    split_ifs
    · exact (h.put_key _ _).put_version _ _ _
    · exact h
  | committed =>
    simp only
    split_ifs
    · exact (h.put_key _ _).put_version _ _ _
    · exact h.put_key _ _
  | aborted =>
    cases uncovered eng i.key m with
    | none => exact h
    | some m' => exact h.put_key _ _

end Turn

/-! ### Passes over a list -/

/-- The metadata of every intent has its version. -/
structure Carried (eng : Engine) : Prop where
  versioned : Versioned eng
  ver : ∀ k m, metaAt eng k = some m → m.transactionID ≠ [] → verAt eng k m.timestamp ≠ none

/-- The intent has nothing to change. -/
def Still (eng : Engine) (i : Intent) : Prop :=
  ∀ m, i.key ≠ [] → metaAt eng i.key = some m → m.transactionID = i.txn.id →
    resolvedTo eng i m = m

/-- The intents name their transactions, and either all of these are aborted or none is. -/
def Alike (l : List Intent) : Prop :=
  (∀ i ∈ l, i.txn.id ≠ []) ∧
    ((∀ i ∈ l, i.txn.status = .aborted) ∨ ∀ i ∈ l, i.txn.status ≠ .aborted)

section Lists

variable {s s' : St} {eng : Engine} {i j : Intent} {l p q : List Intent} {k : Key}
  {m : MVCCMetadata} {v : Value}

omit [Slices] in
lemma Arranged.carried (h : Arranged eng) : Carried eng :=
  ⟨h.ok.versioned, fun k m hm _ => (h.newest k m hm).1⟩

/-- **One turn does not panic**, and is that of an intent that is not found or of one that is. -/
theorem Carried.step (h : Carried s.eng) (hid : i.txn.id ≠ []) :
    ∃ s', resolveStep s i = some s' ∧ Carried s'.eng ∧
      (s'.eng = s.eng ∧
          ¬ (i.key ≠ [] ∧ ∃ m, metaAt s.eng i.key = some m ∧ m.transactionID = i.txn.id) ∨
        ∃ m v, i.key ≠ [] ∧ metaAt s.eng i.key = some m ∧ m.transactionID = i.txn.id ∧
          s'.eng = resolved s.eng i m v) := by
  by_cases hf : i.key ≠ [] ∧ ∃ m, metaAt s.eng i.key = some m ∧ m.transactionID = i.txn.id
  swap
  · exact ⟨s, resolveStep_unfound hf, h, .inl ⟨rfl, hf⟩⟩
  obtain ⟨hk, m, hm, hmid⟩ := hf
  obtain ⟨v, hv⟩ := Option.ne_none_iff_exists'.mp (h.ver i.key m hm (hmid ▸ hid))
  obtain ⟨s', hs', he⟩ := resolveStep_badger h.versioned hk hm hmid hv
  refine ⟨s', hs', ⟨he ▸ h.versioned.resolved i m v, fun k m' hm' hne => ?_⟩,
    .inr ⟨m, v, hk, hm, hmid, he⟩⟩
  by_cases hki : k = i.key
  · subst hki
    rw [he, metaAt_resolved hm] at hm'
    cases hm'
    rw [he, verAt_resolved]
    split_ifs with hmoved
    · simp
    · -- the intent is where it was, or there is none
      suffices hsame : resolvedTo s.eng i m = m by simp [hsame, hv]
      unfold resolvedTo at hne ⊢
      cases hst : i.txn.status with
      | pending =>
        rw [hst] at hmoved
        simp only
        split_ifs with hlt
        · exact absurd ⟨by simp, hlt, by simp [resolvedTo, hst, hlt]⟩ hmoved
        · rfl
      | committed => simp [hst] at hne
      | aborted =>
        cases hun : uncovered s.eng i.key m with
        | none => rfl
        | some m' => simp [hst, hun, uncovered_bare hun] at hne
  · rw [resolveStep_version hs' hki]
    rw [resolveStep_meta hs' hki] at hm'
    exact h.ver k m' hm' hne

/-- A new value under the metadata key of some key does not change what an abort finds. -/
lemma uncovered_put_key (h : Versioned eng) {k' : Key} (hx : eng.get (newMVCCKey k') ≠ none)
    (e : Entry) : uncovered (eng.put (newMVCCKey k') e) k m = uncovered eng k m := by
  set eng' := eng.put (newMVCCKey k') e with heng
  have hget : ∀ x, x ≠ newMVCCKey k' → eng'.get x = eng.get x := fun x hx => by
    rw [heng, OrdMap.get_put, if_neg hx]
  -- the same keys are kept
  have hkeys : ∀ a b, (scan eng' a b 1).map Prod.fst = (scan eng a b 1).map Prod.fst := by
    intro a b
    have hseek := eng.seek_put_keys hx e a
    have hlen : (iterate eng' a b).length = (iterate eng a b).length := by
      unfold iterate
      split_ifs
      · have hwalk : ∀ l : List (MVCCKey × Entry),
            (l.takeWhile fun e => decide (e.1 < b)).length =
              ((l.map Prod.fst).takeWhile fun x => decide (x < b)).length := fun l => by
          rw [List.takeWhile_map, List.length_map]
          rfl
        rw [hwalk, hwalk, hseek]
      · rfl
    unfold scan
    simp only [hlen]
    exact Slices.key_held _ _ _ hseek
  have h' : Versioned eng' := h.put_key k' e
  unfold uncovered
  set a := bytesNext (newMVCCTimeKey k m.timestamp)
  set b := newMVCCKey (bytesNext k)
  have hab := hkeys a b
  cases hscan : scan eng a b 1 with
  | nil =>
    rw [hscan, List.map_nil, List.map_eq_nil_iff] at hab
    rw [hab]
  | cons p l =>
    cases hscan' : scan eng' a b 1 with
    | nil => simp [hscan, hscan'] at hab
    | cons p' l' =>
      obtain ⟨x, e₁⟩ := p
      obtain ⟨x', e₂⟩ := p'
      obtain ⟨u, w, -, rfl, hw, hle, hleast⟩ := scan_below h hscan
      obtain ⟨u', w', -, rfl, hw', hle', hleast'⟩ := scan_below h' hscan'
      -- the same entry stands first, and it is a version
      have hver := h.get_version hw
      have hver' := h'.get_version hw'
      have heq : newMVCCTimeKey k u = newMVCCTimeKey k u' := by
        refine le_antisymm (hleast _ (.value { value := some w' }) hle' ?_)
          (hleast' _ (.value { value := some w }) hle ?_)
        · rw [← hget _ (newMVCCTimeKey_ne_key _ _ _), hver']
        · rw [hget _ (newMVCCTimeKey_ne_key _ _ _), hver]
      rw [heq, ← hget _ (newMVCCTimeKey_ne_key _ _ _), hver'] at hver
      cases hver
      obtain rfl : x' = x := by simpa [hscan, hscan'] using congrArg List.head? hab
      rfl

/-- A turn leaves the others still: those of a list of aborts see the same keys, and those of a
list without aborts at most a later timestamp. -/
lemma Still.turn (h : Still eng i) (hv : Versioned eng) (hi : i.txn.id ≠ [])
    (hj : j.txn.id ≠ [])
    (halike : i.txn.status = .aborted ∧ j.txn.status = .aborted ∨
      i.txn.status ≠ .aborted ∧ j.txn.status ≠ .aborted)
    (hm : metaAt eng j.key = some m) (hmid : m.transactionID = j.txn.id) :
    Still (resolved eng j m v) i := by
  intro m₁ hk hm₁ hid₁
  by_cases hkey : i.key = j.key
  · have hkept : resolved eng j m v = eng → resolvedTo (resolved eng j m v) i m₁ = m₁ :=
      fun heq => by
        rw [heq] at hm₁ ⊢
        exact h m₁ hk hm₁ hid₁
    rw [hkey, metaAt_resolved hm, Option.some.injEq] at hm₁
    rw [← hm₁] at hid₁
    unfold resolvedTo at hid₁ hm₁
    rcases halike with ⟨-, hst⟩ | ⟨hsti, hst⟩
    · cases hun : uncovered eng j.key m with
      | some m' => simp [hst, hun, uncovered_bare hun, hi.symm] at hid₁
      | none =>
        refine hkept ?_
        unfold resolved
        simp only [hst, hun]
    · cases hstj : j.txn.status with
      | aborted => exact absurd hstj hst
      | committed => simp [hstj, hi.symm] at hid₁
      | pending =>
        by_cases hlt : m.timestamp < j.txn.timestamp
        · simp only [hstj, if_pos hlt] at hid₁ hm₁
          have hbefore := h m hk (hkey ▸ hm) (hmid.trans hid₁)
          subst hm₁
          unfold resolvedTo at hbefore ⊢
          cases hstatus : i.txn.status with
          | aborted => exact absurd hstatus hsti
          | committed =>
            -- a commit is still only where there is no intent
            have hbare : m.transactionID = [] := by
              simpa [hstatus] using congrArg MVCCMetadata.transactionID hbefore.symm
            exact absurd (hmid.symm.trans hbare) hj
          | pending =>
            have hle : i.txn.timestamp ≤ m.timestamp := by
              by_contra hlt'
              rw [hstatus] at hbefore
              simp only [if_pos (not_le.mp hlt')] at hbefore
              exact (not_le.mp hlt').ne (congrArg MVCCMetadata.timestamp hbefore).symm
            exact if_neg (not_lt.mpr (hle.trans hlt.le))
        · refine hkept ?_
          unfold resolved
          simp only [hstj, if_neg hlt]
  · rw [metaAt_resolved_ne hkey] at hm₁
    refine Eq.trans ?_ (h m₁ hk hm₁ hid₁)
    unfold resolvedTo
    rcases halike with ⟨hsti, hst⟩ | ⟨hsti, -⟩
    · have hx : eng.get (newMVCCKey j.key) ≠ none := by simp [get_of_metaAt hm]
      simp only [hsti]
      unfold resolved
      simp only [hst]
      cases uncovered eng j.key m with
      | none => rfl
      | some m' => simp only [uncovered_put_key hv hx]
    · cases hstatus : i.txn.status with
      | aborted => exact absurd hstatus hsti
      | pending => rfl
      | committed => rfl

end Lists

end Ancestor
