import Ancestor.RangeWrites

/-!
Commands that are run a second time on what they have left behind.

A change of a transaction record settles it: asked for again, it finds nothing to do. A put
stores the same version again. On an engine that clears what it is told to, a deletion may take
its own tombstone for an intent that has been moved.
-/

namespace Ancestor

open M Hoare Steps

lemma put_same {eng : Engine} {x : MVCCKey} {e : Entry} (h : eng.get x = some e) :
    eng.put x e = eng := by
  refine OrdMap.ext_get fun y => ?_
  rw [OrdMap.get_put]
  split_ifs with hy
  · rw [hy, h]
  · rfl

lemma eq_put_of_get {eng eng' : Engine} {x : MVCCKey} {e : Entry}
    (h : ∀ y, eng'.get y = if y = x then some e else eng.get y) : eng' = eng.put x e := by
  refine OrdMap.ext_get fun y => ?_
  rw [h, OrdMap.get_put]
  split_ifs <;> rfl

/-! ### Records -/

section Records

variable {req r r' : Transaction} {changeType : TxnChangeType} {o : Option Transaction}

end Records

/-! ### Puts -/

section Puts

variable {s : St} {req : PutRequest} {o : Option MVCCMetadata}

/-- The metadata stands in the way of the put: newer than the request, or an intent of another
transaction. -/
def Refuses (req : PutRequest) (o : Option MVCCMetadata) : Prop :=
  ∃ m, o = some m ∧ (m.transactionID = [] ∧ req.timestamp < m.timestamp ∨
    m.transactionID ≠ [] ∧ m.transactionID ≠ req.txn.id)

/-- A deletion where there is nothing to delete. -/
def Skips (req : PutRequest) (o : Option MVCCMetadata) : Prop :=
  isNoneValue req.value = true ∧ o.elim true (·.deleted) = true

/-- The engine without the version of the transaction's own intent, if that has another
timestamp than the request. -/
def dropMoved [Backend] (eng : Engine) (req : PutRequest) : Option MVCCMetadata → Engine
  | some m =>
    if m.transactionID ≠ [] ∧ m.timestamp ≠ req.timestamp then
      erase eng (newMVCCTimeKey req.key m.timestamp)
    else eng
  | none => eng

/-- The version of the put and its metadata. -/
def storeVersion (eng : Engine) (req : PutRequest) : Engine :=
  (eng.put (newMVCCKey req.key)
    (.metaData ⟨req.txn.id, req.txn.timestamp, isNoneValue req.value⟩)).put
      (newMVCCTimeKey req.key req.txn.timestamp) (.value { value := some req.value })

lemma mvccGetMeta_of_dataKey (hk : req.key ≠ []) (hd : DataKey s.eng req.key) :
    ∃ a b, M.read (mvccGetMeta · req.key) s = .ok (metaAt s.eng req.key, a, b) s := by
  obtain ⟨a, b, h⟩ := mvccGetMeta_eq hd hk
  exact ⟨a, b, read_ok h⟩

lemma putCheck_of_refuses [Backend] (h : Refuses req o) :
    ∃ e, putCheck req.key req.txn req.timestamp o s = .error e s := by
  obtain ⟨m, rfl, ⟨hid, hlt⟩ | ⟨hid, hne⟩⟩ := h
  · refine ⟨.writeTooOld req.timestamp m.timestamp, ?_⟩
    simp only [putCheck, if_pos hid, Timestamp.less_iff, if_pos hlt]
    rfl
  · refine ⟨.writeIntent (newWriteIntentError req.txn .pushAbort m.transactionID req.key), ?_⟩
    simp only [putCheck, if_neg hid, if_pos hne]
    rfl

lemma putCheck_of_not_refuses [Backend] (h : ¬ Refuses req o) :
    putCheck req.key req.txn req.timestamp o s = .ok () ⟨dropMoved s.eng req o, s.stats⟩ := by
  cases o with
  | none => rfl
  | some m =>
    by_cases hid : m.transactionID = []
    · have hlt : ¬ req.timestamp < m.timestamp := fun hlt => h ⟨m, rfl, .inl ⟨hid, hlt⟩⟩
      simp only [putCheck, Timestamp.less_iff, if_neg hlt, dropMoved, ne_eq, hid,
        not_true, false_and, if_false]
      rfl
    · have hown : m.transactionID = req.txn.id :=
        by_contra fun hne => h ⟨m, rfl, .inr ⟨hid, hne⟩⟩
      have hne : req.txn.id ≠ [] := hown ▸ hid
      by_cases hts : m.timestamp = req.timestamp
      · simp only [putCheck, hown, if_neg hne, ne_eq, not_true, if_false, Timestamp.equal_iff, hts,
          dropMoved, and_false]
        rfl
      · simp only [putCheck, hown, hne, ne_eq, not_true, if_false, Timestamp.equal_iff, hts,
          not_false_iff, if_true, dropMoved, and_true]
        rfl

/-- **What a put does to the engine.** -/
theorem put_eng [Backend] (hk : req.key ≠ []) (hd : DataKey s.eng req.key) :
    (Refuses req (metaAt s.eng req.key) ∧ ∃ e, put req s = .error e s) ∨
    (¬ Refuses req (metaAt s.eng req.key) ∧ ∃ s', put req s = .ok () s' ∧
      (Skips req (metaAt s.eng req.key) ∧
          s'.eng = dropMoved s.eng req (metaAt s.eng req.key) ∨
        ¬ Skips req (metaAt s.eng req.key) ∧
          s'.eng = storeVersion (dropMoved s.eng req (metaAt s.eng req.key)) req)) := by
  obtain ⟨a, b, hread⟩ := mvccGetMeta_of_dataKey hk hd
  by_cases hr : Refuses req (metaAt s.eng req.key)
  · obtain ⟨e, he⟩ := putCheck_of_refuses (s := s) hr
    refine .inl ⟨hr, e, ?_⟩
    rw [put, run_bind_ok hread]
    exact run_bind_error he
  · refine .inr ⟨hr, ?_⟩
    rw [put, run_bind_ok hread]
    simp only
    rw [run_bind_ok (putCheck_of_not_refuses hr)]
    by_cases hskip : Skips req (metaAt s.eng req.key)
    · rw [if_pos (by simpa [Skips] using hskip)]
      exact ⟨_, rfl, .inl ⟨hskip, rfl⟩⟩
    · rw [if_neg (by simpa [Skips] using hskip)]
      obtain ⟨x, s₁, hs₁, he⟩ := mvccPutMeta_eng hk req.txn (isNoneValue req.value) a b
        ⟨dropMoved s.eng req (metaAt s.eng req.key), s.stats⟩
      obtain ⟨s₂, hs₂, he₂⟩ : ∃ s₂, mvccPut req.key req.txn req.value s₁ = .ok () s₂ ∧
          s₂.eng = s₁.eng.put (newMVCCTimeKey req.key req.txn.timestamp)
            (.value { value := some req.value }) := ⟨_, rfl, rfl⟩
      refine ⟨s₂, ?_, .inr ⟨hskip, ?_⟩⟩
      · rw [putDataAndMeta, run_bind_ok hs₁]
        exact hs₂
      · rw [he₂, he]
        rfl

/-- A key without metadata that can be read is refused. -/
lemma put_unreadable [Backend] (h : ¬ (req.key ≠ [] ∧ DataKey s.eng req.key)) :
    put req s = .error .invalidKey s ∨ put req s = .error .unmarshalData s := by
  by_cases hk : req.key = []
  · refine .inl (run_bind_error (read_error ?_))
    rw [mvccGetMeta, if_pos (by simp [hk])]
  · have hd : ¬ DataKey s.eng req.key := fun hd => h ⟨hk, hd⟩
    refine .inr (run_bind_error (read_error ?_))
    rw [mvccGetMeta, if_neg (by simpa using hk)]
    simp only [DataKey, not_forall, not_exists] at hd
    obtain ⟨e, he, hne⟩ := hd
    cases e with
    | metaData m => exact absurd rfl (hne m)
    | _ => simp only [he]

lemma metaAt_storeVersion (eng : Engine) (req : PutRequest) :
    metaAt (storeVersion eng req) req.key =
      some ⟨req.txn.id, req.txn.timestamp, isNoneValue req.value⟩ := by
  simp [storeVersion]

lemma storeVersion_get (eng : Engine) (req : PutRequest) :
    (storeVersion eng req).get (newMVCCTimeKey req.key req.txn.timestamp) =
      some (.value { value := some req.value }) := by
  rw [storeVersion, OrdMap.get_put, if_pos rfl]

lemma metaAt_dropMoved [Backend] (eng : Engine) (req : PutRequest) (o : Option MVCCMetadata)
    (k : Key) :
    metaAt (dropMoved eng req o) k = metaAt eng k := by
  unfold dropMoved
  split
  · split_ifs
    · rw [metaAt, get_erase_ne _ (newMVCCKey_ne_timeKey _ _ _), metaAt]
    · rfl
  · rfl

lemma metaAt_of_not_dataKey {eng : Engine} {k : Key} (h : ¬ DataKey eng k) :
    metaAt eng k = none := by
  by_contra hne
  obtain ⟨m, hm⟩ := Option.ne_none_iff_exists'.mp hne
  have hget := get_of_metaAt hm
  exact h fun e he => ⟨m, Option.some.inj (he.symm.trans hget)⟩

/-- The intent of another transaction. -/
def Foreign (req : PutRequest) (o : Option MVCCMetadata) : Prop :=
  ∃ m, o = some m ∧ m.transactionID ≠ [] ∧ m.transactionID ≠ req.txn.id

lemma dataKey_of_metaAt {eng : Engine} {k : Key} {m : MVCCMetadata} (h : metaAt eng k = some m) :
    DataKey eng k :=
  by_contra fun hd => by simp [metaAt_of_not_dataKey hd] at h

/-- A put that meets another transaction's intent answers with it. -/
lemma put_foreign [Backend] {m : MVCCMetadata} (hk : req.key ≠ [])
    (hm : metaAt s.eng req.key = some m)
    (hne : m.transactionID ≠ []) (hid : m.transactionID ≠ req.txn.id) :
    put req s = .error
      (.writeIntent (newWriteIntentError req.txn .pushAbort m.transactionID req.key)) s := by
  obtain ⟨a, b, hread⟩ := mvccGetMeta_of_dataKey hk (dataKey_of_metaAt hm)
  rw [put, run_bind_ok hread, hm]
  refine run_bind_error ?_
  simp only [putCheck, if_neg hne, if_pos hid]
  rfl

/-- A put that meets none fails for another reason, and leaves none behind. -/
lemma put_not_foreign [Backend] (h : ¬ (req.key ≠ [] ∧ Foreign req (metaAt s.eng req.key))) :
    (∀ e s', put req s = .error e s' → s' = s ∧ ∀ wiErr, e ≠ .writeIntent wiErr) ∧
      ¬ (req.key ≠ [] ∧ Foreign req (metaAt (stateAfter (put req) s).eng req.key)) := by
  by_cases hr : req.key ≠ [] ∧ DataKey s.eng req.key
  swap
  · rcases put_unreadable hr with hs | hs <;> rw [hs, stateAfter_error hs] <;>
      refine ⟨fun e s' he => ?_, h⟩ <;> cases he <;> exact ⟨rfl, by simp⟩
  obtain ⟨hk, hd⟩ := hr
  have hf : ¬ Foreign req (metaAt s.eng req.key) := fun hf => h ⟨hk, hf⟩
  rcases put_eng hk hd with ⟨href, e, he⟩ | ⟨-, s', hs', hout⟩
  · rw [he, stateAfter_error he]
    refine ⟨fun e' s' he' => ?_, h⟩
    cases he'
    refine ⟨rfl, ?_⟩
    -- of the two reasons to refuse a put only its age is left
    obtain ⟨m, hm, ⟨hid, hlt⟩ | hne⟩ := href
    · obtain ⟨a, b, hread⟩ := mvccGetMeta_of_dataKey hk hd
      rw [put, run_bind_ok hread, hm] at he
      have hcheck : putCheck req.key req.txn req.timestamp (some m) s =
          .error (.writeTooOld req.timestamp m.timestamp) s := by
        simp only [putCheck, if_pos hid, Timestamp.less_iff, if_pos hlt]
        rfl
      simp only at he
      rw [run_bind_error hcheck] at he
      cases he
      simp
    · exact absurd ⟨m, hm, hne⟩ hf
  · rw [hs', stateAfter_ok hs']
    refine ⟨fun e' s' he' => (by cases he'), fun hfor => ?_⟩
    obtain ⟨m, hm, hne, hid⟩ := hfor.2
    rcases hout with ⟨-, he⟩ | ⟨-, he⟩
    · rw [he, metaAt_dropMoved] at hm
      exact hf ⟨m, hm, hne, hid⟩
    · rw [he, metaAt_storeVersion] at hm
      cases hm
      exact hid rfl

end Puts

end Ancestor
