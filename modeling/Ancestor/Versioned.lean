import Ancestor.Again
import Ancestor.Snapshot

/-!
Engines of versions, and one turn of a resolution on them (`storage/engine/mvcc.go`).

A version that the metadata of an intent names is found under its timestamp and goes to that of
the transaction, and a turn touches the entries of its key only. Where the metadata of each key
stands for its newest version, what an abort finds below its intent is the next version of the key.
-/

namespace Ancestor

open M Hoare Steps

/-! ### Engines of versions -/

/-- Every entry stands under a key's metadata key, or is a version with a value. -/
def Versioned (eng : Engine) : Prop :=
  ∀ x e, eng.get x = some e →
    (∃ k, x = newMVCCKey k) ∨ ∃ k t v, x = newMVCCTimeKey k t ∧ e = .value { value := some v }

section Versioned

variable {eng : Engine} {k : Key} {m m' : MVCCMetadata} {t : Timestamp} {v : Value}

lemma EngineOk.versioned (h : EngineOk eng) : Versioned eng := fun x e he =>
  (h x e he).imp (fun ⟨k, hx, _⟩ => ⟨k, hx⟩) fun ⟨k, t, v, hx, _, hv⟩ => ⟨k, t, v, hx, hv⟩

lemma Versioned.put_key (h : Versioned eng) (k : Key) (e : Entry) :
    Versioned (eng.put (newMVCCKey k) e) := by
  intro x e' he
  rw [OrdMap.get_put] at he
  split_ifs at he with hx
  · exact .inl ⟨k, hx⟩
  · exact h x e' he

lemma Versioned.put_version (h : Versioned eng) (k : Key) (t : Timestamp) (v : Value) :
    Versioned (eng.put (newMVCCTimeKey k t) (.value { value := some v })) := by
  intro x e he
  rw [OrdMap.get_put] at he
  split_ifs at he with hx
  · cases he
    exact .inr ⟨k, t, v, hx, rfl⟩
  · exact h x e he

lemma Versioned.get_version (h : Versioned eng) (hv : verAt eng k t = some v) :
    eng.get (newMVCCTimeKey k t) = some (.value { value := some v }) := by
  obtain ⟨e, he⟩ := get_of_verAt hv
  rcases h _ e he with ⟨k', hx⟩ | ⟨k', t', v', -, rfl⟩
  · exact absurd hx (newMVCCTimeKey_ne_key _ _ _)
  · have : v' = v := by simpa [verAt, he] using hv
    rw [he, this]

/-- A version that is there is found by a read at its own timestamp. -/
lemma mvccGet_version (hk : k ≠ []) (h : Versioned eng) (hv : verAt eng k t = some v) :
    ∃ a b, mvccGet eng k t = .ok (some v, a, b) := by
  have hget := h.get_version hv
  rw [mvccGet, if_neg (by simpa using hk), mvccGetInternal]
  cases hseek : eng.seek (newMVCCTimeKey k t) with
  | nil =>
    rw [eng.seek_nil hseek le_rfl] at hget
    cases hget
  | cons p l =>
    obtain ⟨x, e⟩ := p
    obtain ⟨hle, hx, hleast⟩ := eng.seek_head hseek
    obtain rfl : newMVCCTimeKey k t = x := le_antisymm hle (hleast _ _ le_rfl hget)
    rw [hget] at hx
    cases hx
    simp

/-- The entry that a scan has stopped after: its value, and its key where slices are copies. -/
lemma scan_one_cons [Backend] {a b x : MVCCKey} {e : Entry} {l : List (MVCCKey × Entry)}
    (h : scan eng a b 1 = (x, e) :: l) :
    ∃ y, a ≤ y ∧ y < b ∧ eng.get y = some e ∧ (Backend.Copies → x = y) ∧
      ∀ z e', a ≤ z → eng.get z = some e' → y ≤ z := by
  cases hit : iterate eng a b with
  | nil => simp [scan_eq_nil hit] at h
  | cons p l' =>
    obtain ⟨y, e₀⟩ := p
    obtain ⟨x', hx', hcopy⟩ := scan_one hit
    rw [hx'] at h
    cases h
    unfold iterate at hit
    split_ifs at hit
    obtain ⟨⟨hle, hlt⟩, hget⟩ := mem_walk.mp (hit ▸ List.mem_cons_self)
    refine ⟨y, hle, hlt, hget, hcopy, fun z e' hz hze => ?_⟩
    cases hseek : eng.seek a with
    | nil => simp [hseek] at hit
    | cons q l'' =>
      rw [hseek, List.takeWhile_cons] at hit
      split_ifs at hit
      cases hit
      exact (eng.seek_head hseek).2.2 z e' hz hze

/-- What an abort finds below its intent is a version of the key, the newest one there. -/
lemma scan_below [Backend] (h : Versioned eng) {x : MVCCKey} {e : Entry}
    {l : List (MVCCKey × Entry)}
    (hscan : scan eng (bytesNext (newMVCCTimeKey k t)) (newMVCCKey (bytesNext k)) 1 = (x, e) :: l) :
    ∃ u v, (Backend.Copies → x = newMVCCTimeKey k u) ∧ e = .value { value := some v } ∧
      verAt eng k u = some v ∧ bytesNext (newMVCCTimeKey k t) ≤ newMVCCTimeKey k u ∧
      ∀ z e', bytesNext (newMVCCTimeKey k t) ≤ z → eng.get z = some e' →
        newMVCCTimeKey k u ≤ z := by
  obtain ⟨y, hle, hlt, hget, hcopy, hleast⟩ := scan_one_cons hscan
  rcases h y e hget with ⟨k', rfl⟩ | ⟨k', u, v, rfl, rfl⟩
  · -- no metadata stands between a version of a key and the next key
    have hk := le_iff_lt_bytesNext.mpr (newMVCCKey_lt_iff.mp hlt)
    have hlt' := (newMVCCKey_le_iff.mpr hk).trans_lt
      ((newMVCCKey_lt_timeKey k t).trans (lt_bytesNext _))
    exact absurd hle (not_le.mpr hlt')
  · have hk : k' ≤ k := le_iff_lt_bytesNext.mpr
      ((lt_newMVCCKey_iff (versionKeys_subset k' (timeKey_mem k' u)) _).mp hlt)
    obtain rfl : k' = k := hk.eq_of_not_lt fun hlt' => by
      have := Encoding.encodeBytes_lt hlt' (tsBytes u) (tsBytes t)
      rw [newMVCCTimeKey_eq, newMVCCTimeKey_eq] at hle
      exact lt_asymm this ((lt_bytesNext _).trans_le hle)
    exact ⟨u, v, hcopy, rfl, by simp [verAt, hget], hle, hleast⟩

end Versioned

/-! ### The version of an intent on its way -/

section Update

variable {s : St} {k : Key} {m : MVCCMetadata} {v : Value}

/-- The version of the intent goes to the timestamp of the transaction. -/
lemma mvccResolveIntentUpdate_found [Backend] (hk : k ≠ []) (h : Versioned s.eng)
    (hv : verAt s.eng k m.timestamp = some v) (txn : Transaction) :
    ∃ s', mvccResolveIntentUpdate k txn m s = .ok () s' ∧
      s'.eng = erase (s.eng.put (newMVCCTimeKey k txn.timestamp) (.value { value := some v }))
        (newMVCCTimeKey k m.timestamp) := by
  obtain ⟨a, b, hget⟩ := mvccGet_version hk h hv
  have hread : M.read (mvccGet · k m.timestamp) s = .ok (some v, a, b) s := read_ok hget
  rw [mvccResolveIntentUpdate, run_bind_ok hread]
  exact ⟨_, rfl, rfl⟩

/-- The metadata is written and the version is moved: all that changes. -/
lemma putMeta_update_eng [Backend] (hk : k ≠ []) (h : Versioned s.eng)
    (hv : verAt s.eng k m.timestamp = some v) (txn : Transaction) (deleted : Bool) (a b : ℕ) :
    ∃ s', (do let _ ← mvccPutMeta k txn deleted a b; mvccResolveIntentUpdate k txn m) s =
        .ok () s' ∧
      s'.eng = erase ((s.eng.put (newMVCCKey k) (.metaData ⟨txn.id, txn.timestamp, deleted⟩)).put
        (newMVCCTimeKey k txn.timestamp) (.value { value := some v }))
          (newMVCCTimeKey k m.timestamp) := by
  obtain ⟨x, s₁, hs₁, he₁⟩ := mvccPutMeta_eng hk txn deleted a b s
  have h₁ : Versioned s₁.eng := he₁ ▸ h.put_key k _
  have hv₁ : verAt s₁.eng k m.timestamp = some v := by rw [he₁, verAt_put_meta, hv]
  obtain ⟨s₂, hs₂, he₂⟩ := mvccResolveIntentUpdate_found hk h₁ hv₁ txn
  exact ⟨s₂, (run_bind_ok hs₁).trans hs₂, by rw [he₂, he₁]⟩

lemma mvccGetMeta_error {eng : Engine} {e : Err} (h : mvccGetMeta eng k = .error e) :
    e = .invalidKey ∨ e = .unmarshalData := by
  unfold mvccGetMeta at h
  split_ifs at h
  · cases h
    exact .inl rfl
  · simp only at h
    split at h <;> cases h
    exact .inr rfl

variable {i : Intent}

lemma resolveStep_of_ok [Backend] {s' : St} (h : mvccResolveIntent i s = .ok () s') :
    resolveStep s i = some s' := by
  rw [resolveStep, h]

lemma resolveStep_unfound [Backend]
    (h : ¬ (i.key ≠ [] ∧ ∃ m, metaAt s.eng i.key = some m ∧ m.transactionID = i.txn.id)) :
    resolveStep s i = some s := by
  rcases mvccResolveIntent_unfound_run h with hs | ⟨e, hg, hs⟩
  · exact resolveStep_of_ok hs
  · rcases mvccGetMeta_error hg with rfl | rfl <;> rw [resolveStep, hs]

/-- A turn touches the entries of its key only. -/
lemma resolveStep_frame [Backend] {s' : St} (h : resolveStep s i = some s') {x : MVCCKey}
    (hx : x ∉ entryKeys i.key) : s'.eng.get x = s.eng.get x := by
  rw [← (resolve_cons_some (l := []) h).1]
  exact (only_mvccResolveIntent i).after s hx

lemma resolveStep_meta [Backend] {s' : St} (h : resolveStep s i = some s') {k : Key}
    (hk : k ≠ i.key) : metaAt s'.eng k = metaAt s.eng k := by
  rw [metaAt, metaAt, resolveStep_frame h fun hx => hk (entryKeys_inj (metaKey_mem k) hx)]

lemma resolveStep_version [Backend] {s' : St} (h : resolveStep s i = some s') {k : Key}
    (hk : k ≠ i.key) (t : Timestamp) : verAt s'.eng k t = verAt s.eng k t := by
  rw [verAt, verAt, resolveStep_frame h fun hx =>
    hk (entryKeys_inj (versionKeys_subset k (timeKey_mem k t)) hx)]

lemma resolve_of_run [Backend] {s' : St} {l : List Intent} (h : run resolveStep s l = some s') :
    mvccResolveWriteIntent l s = .ok () s' := by
  induction l generalizing s with
  | nil =>
    cases h
    rfl
  | cons i l ih =>
    obtain ⟨t, ht, hl⟩ := run_cons.mp h
    simp only [mvccResolveWriteIntent]
    unfold resolveStep at ht
    cases hrun : mvccResolveIntent i s with
    | ok a s₁ =>
      rw [hrun] at ht
      cases ht
      exact ih hl
    | error e s₁ =>
      rw [hrun] at ht
      cases e <;> first | (cases ht; done) | (cases ht; exact ih hl)

end Update

/-! ### Arranged engines -/

/-- The metadata of a key stands for its newest version. -/
structure Arranged (eng : Engine) : Prop where
  ok : EngineOk eng
  newest : ∀ k m, metaAt eng k = some m →
    verAt eng k m.timestamp ≠ none ∧ ∀ t, verAt eng k t ≠ none → t ≤ m.timestamp

lemma Arranged.put_txn {eng : Engine} (h : Arranged eng) (id : Key) (r : Transaction) :
    Arranged (eng.put (newMVCCKey id) (.txn r)) := by
  have hver : ∀ k t, verAt (eng.put (newMVCCKey id) (.txn r)) k t = verAt eng k t := fun k t => by
    rw [verAt, OrdMap.get_put, if_neg (newMVCCTimeKey_ne_key _ _ _), verAt]
  refine ⟨h.ok.put_txn id r, fun k m hm => ?_⟩
  simp only [hver]
  refine h.newest k m ?_
  by_cases hk : k = id
  · subst hk
    simp [metaAt] at hm
  · rwa [metaAt, OrdMap.get_put, if_neg (mt newMVCCKey_inj.mp hk)] at hm

/-- The key `a` with an intent at 3 of the transaction `[1]`, and its record. -/
def blocked : St where
  eng := ((OrdMap.empty.put (newMVCCTimeKey [0x02, 0x61] ⟨3, 0⟩)
    (.value { value := some { bytes := [0x61] } })).put (newMVCCKey [0x02, 0x61])
    (.metaData ⟨[0x01], ⟨3, 0⟩, false⟩)).put (newMVCCKey [0x01])
    (.txn { id := [0x01], timestamp := ⟨3, 0⟩, lastHeartbeat := 3 })

lemma blocked_arranged : Arranged blocked.eng := by
  have hempty : EngineOk .empty := fun x e he => by simp at he
  refine Arranged.put_txn ⟨(hempty.put_ver _ (by decide) _).put_meta _ (by decide),
    fun k m hm => ?_⟩ _ _
  rw [metaAt_put_meta, metaAt_put_time] at hm
  split_ifs at hm with hk
  · cases hm
    simp only [verAt_put_meta, verAt_put_time, hk, true_and]
    refine ⟨by simp, fun t ht => ?_⟩
    split_ifs at ht with h3
    · exact h3.le
    · exact absurd rfl ht
  · cases hm

end Ancestor
