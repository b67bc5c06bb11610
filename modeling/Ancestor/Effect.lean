import Ancestor.Lib.Hoare
import Ancestor.Cell

/-!
What the commands of a replica do to a cell.

A put, a read and the resolution of an intent each look at one cell; here each of them is
given its meaning on cells, and the command on the engine is shown to have it.
-/

namespace Ancestor

open M Versions Hoare

/-! ### Reads -/

section Run

variable {α : Type} {s : St} {a : α} {e : Err}

lemma read_ok {g : Engine → Except Err α} (h : g s.eng = .ok a) : M.read g s = .ok a s := by
  rw [M.read, h]

lemma read_error {g : Engine → Except Err α} (h : g s.eng = .error e) :
    M.read g s = .error e s := by
  rw [M.read, h]

end Run

/-! ### The parts of a command -/

section Parts

variable {s : St} {k : Key}

lemma mvccGetMeta_eq (hd : DataKey s.eng k) (hk : k ≠ []) :
    ∃ a b, mvccGetMeta s.eng k = .ok (metaAt s.eng k, a, b) := by
  rw [mvccGetMeta, if_neg (by simpa using hk)]
  simp only [metaAt]
  cases hg : s.eng.get (newMVCCKey k) with
  | none => exact ⟨0, 0, rfl⟩
  | some e =>
    obtain ⟨m, rfl⟩ := hd e hg
    exact ⟨_, _, rfl⟩

lemma mvccPutMeta_run (txn : Transaction) (hok : EngineOk s.eng) (hk : k ≠ [])
    (ht : txn.timestamp.Nonneg) (deleted : Bool) (a b : ℕ) :
    ∃ x s', mvccPutMeta k txn deleted a b s = .ok x s' ∧ Updates s.eng s'.eng k
      ((cell s.eng k).setMeta (some ⟨txn.id, txn.timestamp, deleted⟩)) := by
  rw [mvccPutMeta, if_neg (by simpa using hk)]
  exact ⟨_, _, rfl, updates_putMeta hok ht⟩

lemma mvccPut_run (txn : Transaction) (hok : EngineOk s.eng) (hd : DataKey s.eng k)
    (ht : txn.timestamp.Nonneg) (v : Value) :
    ∃ s', mvccPut k txn v s = .ok () s' ∧
      Updates s.eng s'.eng k ((cell s.eng k).setVer txn.timestamp (some v)) :=
  ⟨_, rfl, updates_putVer hok hd ht v⟩

lemma mvccClear_run [Backend] (hok : EngineOk s.eng) (hd : DataKey s.eng k) (t : Timestamp) :
    ∃ s', mvccClear k t s = .ok () s' ∧ Updates s.eng s'.eng k ((cell s.eng k).drop t) :=
  ⟨_, rfl, updates_eraseVer hok hd t⟩

end Parts

/-! ### Puts -/

lemma bytes_of_isNoneValue {v : Value} (h : isNoneValue v = true) : v.bytes = [] := by
  simp only [isNoneValue, Bool.and_eq_true, decide_eq_true_eq, List.length_eq_zero_iff] at h
  exact h.1.1.1

namespace Cell

/-- The new version of a put and the metadata that goes with it. -/
def write (c : Cell) (txn : Transaction) (val : Value) : Cell :=
  (c.setMeta (some ⟨txn.id, txn.timestamp, isNoneValue val⟩)).setVer txn.timestamp (some val)

@[simp] lemma write_metaData (c : Cell) (txn : Transaction) (val : Value) :
    (c.write txn val).metaData = some ⟨txn.id, txn.timestamp, isNoneValue val⟩ := rfl

@[simp] lemma write_vers (c : Cell) (txn : Transaction) (val : Value) (u : Timestamp) :
    (c.write txn val).vers u = if u = txn.timestamp then some val else c.vers u := by
  simp [write]

/-- A deletion of what is absent or deleted already. -/
def skips (c : Cell) (val : Value) : Bool :=
  isNoneValue val && c.metaData.elim true (·.deleted)

section PutTo

variable [Backend]

/-- The cell once the metadata has been checked: a version that the transaction's own intent
has at another timestamp is cleared. -/
def check (c : Cell) (req : PutRequest) : Except Err Cell :=
  match c.metaData with
  | none => .ok c
  | some m =>
    if m.transactionID = [] then
      if req.timestamp < m.timestamp then .error (.writeTooOld req.timestamp m.timestamp)
      else .ok c
    else if m.transactionID ≠ req.txn.id then
      .error (.writeIntent (newWriteIntentError req.txn .pushAbort m.transactionID req.key))
    else if m.timestamp = req.timestamp then .ok c
    else .ok (c.drop m.timestamp)

def put (c : Cell) (req : PutRequest) : Except Err Cell :=
  (c.check req).map fun c' => if c.skips req.value then c' else c'.write req.txn req.value

/-- The ways in which a put succeeds: a deletion of nothing, a write where no intent or the
transaction's own one stands, and both of them after a push has moved that intent. -/
inductive PutTo (c : Cell) (req : PutRequest) : Cell → Prop
  | skip (hskip : c.skips req.value)
    (hown : ∀ m, c.metaData = some m → m.transactionID ≠ [] →
      m.transactionID = req.txn.id ∧ m.timestamp = req.timestamp) :
    PutTo c req c
  | write (hskip : ¬ c.skips req.value)
    (hold : ∀ m, c.metaData = some m → m.transactionID = [] → m.timestamp ≤ req.timestamp)
    (hown : ∀ m, c.metaData = some m → m.transactionID ≠ [] →
      m.transactionID = req.txn.id ∧ m.timestamp = req.timestamp) :
    PutTo c req (c.write req.txn req.value)
  | movedSkip (m : MVCCMetadata) (hskip : c.skips req.value) (hm : c.metaData = some m)
    (hne : m.transactionID ≠ []) (hid : m.transactionID = req.txn.id)
    (hts : m.timestamp ≠ req.timestamp) : PutTo c req (c.drop m.timestamp)
  | movedWrite (m : MVCCMetadata) (hskip : ¬ c.skips req.value) (hm : c.metaData = some m)
    (hne : m.transactionID ≠ []) (hid : m.transactionID = req.txn.id)
    (hts : m.timestamp ≠ req.timestamp) :
    PutTo c req ((c.drop m.timestamp).write req.txn req.value)

lemma put_cases {c c' : Cell} {req : PutRequest} (h : c.put req = .ok c') : c.PutTo req c' := by
  have hstay : (∀ m, c.metaData = some m → m.transactionID = [] → m.timestamp ≤ req.timestamp) →
      (∀ m, c.metaData = some m → m.transactionID ≠ [] →
        m.transactionID = req.txn.id ∧ m.timestamp = req.timestamp) →
      c.check req = .ok c → c.PutTo req c' := fun hold hown hc => by
    simp only [put, hc, Except.map, Except.ok.injEq] at h
    subst h
    split_ifs with hskip
    · exact .skip hskip hown
    · exact .write hskip hold hown
  cases hm : c.metaData with
  | none => exact hstay (by simp [hm]) (by simp [hm]) (by simp [check, hm])
  | some m =>
    by_cases hid : m.transactionID = []
    · by_cases hlt : req.timestamp < m.timestamp
      · simp [put, check, hm, hid, hlt, Except.map] at h
      · exact hstay (by simpa [hm] using fun _ => not_lt.mp hlt) (by simp [hm, hid])
          (by simp [check, hm, hid, hlt])
    · by_cases hown : m.transactionID = req.txn.id
      · have hne : req.txn.id ≠ [] := hown ▸ hid
        by_cases hts : m.timestamp = req.timestamp
        · exact hstay (by simp [hm, hid]) (by simp [hm, hown, hts])
            (by simp [check, hm, hown, hne, hts])
        · simp only [put, check, hm, hown, if_neg hne, ne_eq, not_true, if_false, if_neg hts,
            Except.map, Except.ok.injEq] at h
          subst h
          split_ifs with hskip
          · exact .movedSkip m hskip hm hid hown hts
          · exact .movedWrite m hskip hm hid hown hts
      · simp [put, check, hm, hid, hown, Except.map] at h

end PutTo

end Cell

section Put

variable [Backend] {s : St} (req : PutRequest)

lemma putCheck_run (hok : EngineOk s.eng) (hd : DataKey s.eng req.key) :
    match (cell s.eng req.key).check req with
    | .error e => putCheck req.key req.txn req.timestamp (metaAt s.eng req.key) s = .error e s
    | .ok c => ∃ s', putCheck req.key req.txn req.timestamp (metaAt s.eng req.key) s = .ok () s' ∧
        Updates s.eng s'.eng req.key c := by
  have href := updates_refl hok hd
  simp only [Cell.check, cell] at href ⊢
  cases hm : metaAt s.eng req.key with
  | none => exact ⟨s, rfl, hm ▸ href⟩
  | some m =>
    simp only [putCheck]
    by_cases hid : m.transactionID = []
    · by_cases hlt : req.timestamp < m.timestamp
      · simp only [if_pos hid, Timestamp.less_iff, if_pos hlt]; rfl
      · simp only [if_pos hid, Timestamp.less_iff, if_neg hlt]
        exact ⟨s, rfl, hm ▸ href⟩
    · by_cases hown : m.transactionID = req.txn.id
      · have hid' : req.txn.id ≠ [] := hown ▸ hid
        simp only [hown, if_neg hid', ne_eq, not_true, if_false, Timestamp.equal_iff]
        by_cases hts : m.timestamp = req.timestamp
        · simp only [hts, not_true, if_false, if_true]
          exact ⟨s, rfl, hm ▸ href⟩
        · simp only [hts, not_false_iff, if_true, if_false]
          obtain ⟨s', hs', hu⟩ := mvccClear_run hok hd m.timestamp
          exact ⟨s', hs', by rw [cell, hm] at hu; exact hu⟩
      · simp only [if_neg hid, hown, ne_eq, not_false_iff, if_true]; rfl

/-- **A put acts on its key's cell.** A put that is refused changes nothing. -/
theorem put_run (hok : EngineOk s.eng) (hd : DataKey s.eng req.key) (hk : req.key ≠ [])
    (ht : req.txn.timestamp.Nonneg) :
    match (cell s.eng req.key).put req with
    | .error e => put req s = .error e s
    | .ok c => ∃ s', put req s = .ok () s' ∧ Updates s.eng s'.eng req.key c := by
  obtain ⟨a, b, hmeta⟩ := mvccGetMeta_eq hd hk
  have hread : M.read (mvccGetMeta · req.key) s = .ok (metaAt s.eng req.key, a, b) s :=
    read_ok hmeta
  have hcheck := putCheck_run req hok hd
  simp only [Cell.put]
  cases hc : (cell s.eng req.key).check req with
  | error e =>
    rw [hc] at hcheck
    simp only [Except.map, put]
    rw [run_bind_ok hread]
    exact run_bind_error hcheck
  | ok c =>
    rw [hc] at hcheck
    obtain ⟨s', hs', hu⟩ := hcheck
    simp only [Except.map, put]
    rw [run_bind_ok hread]
    simp only
    rw [run_bind_ok hs']
    by_cases hskip : (cell s.eng req.key).skips req.value = true
    · rw [if_pos hskip, if_pos (by simpa [Cell.skips, cell] using hskip)]
      exact ⟨s', rfl, hu⟩
    · rw [if_neg hskip, if_neg (by simpa [Cell.skips, cell] using hskip)]
      obtain ⟨x, s₁, hs₁, hu₁⟩ := mvccPutMeta_run req.txn hu.ok hk ht (isNoneValue req.value) a b
      obtain ⟨s₂, hs₂, hu₂⟩ := mvccPut_run req.txn hu₁.ok hu₁.dataKey ht req.value
      rw [hu₁.cell_self, hu.cell_self] at hu₂
      refine ⟨s₂, ?_, hu.trans (hu₁.trans hu₂)⟩
      rw [putDataAndMeta, run_bind_ok hs₁]
      exact hs₂

end Put

/-! ### The resolution of an intent -/

namespace Cell

/-- The intent's version, which is `v`, goes to timestamp `ts`; the metadata follows it. -/
def move [Backend] (c : Cell) (m : MVCCMetadata) (id : Key) (ts : Timestamp) (v : Value) : Cell :=
  ((c.setMeta (some ⟨id, ts, m.deleted⟩)).setVer ts (some v)).drop m.timestamp

@[simp] lemma move_metaData [Backend] (c : Cell) (m : MVCCMetadata) (id : Key) (ts : Timestamp)
    (v : Value) : (c.move m id ts v).metaData = some ⟨id, ts, m.deleted⟩ := by
  rw [move, drop_metaData]
  rfl

@[simp] lemma move_vers (c : Cell) (m : MVCCMetadata) (id : Key) (ts u : Timestamp) (v : Value) :
    (@move .ordered c m id ts v).vers u =
      if u = m.timestamp then none else if u = ts then some v else c.vers u := by
  simp [move]

/-- On badger the old version stays. -/
@[simp] lemma move_vers_badger [Slices] (c : Cell) (m : MVCCMetadata) (id : Key)
    (ts u : Timestamp) (v : Value) :
    (@move .badger c m id ts v).vers u = if u = ts then some v else c.vers u := by
  simp [move]

/-- Away from the old version a move only adds the new one. -/
lemma move_vers_of_ne [Backend] (c : Cell) {m : MVCCMetadata} (id : Key) (ts : Timestamp)
    {u : Timestamp} (v : Value) (h : u ≠ m.timestamp) :
    (c.move m id ts v).vers u = if u = ts then some v else c.vers u := by
  rw [move, drop_vers_of_ne _ h]
  simp

/-- The cell after the resolution of its intent `m` with the record `txn`. -/
inductive Resolved [Backend] (c : Cell) (m : MVCCMetadata) (txn : Transaction) : Cell → Prop
  | pendingStay (h : txn.status = .pending) (hle : txn.timestamp ≤ m.timestamp) :
    Resolved c m txn c
  | pendingMove (v : Value) (h : txn.status = .pending) (hlt : m.timestamp < txn.timestamp)
    (hv : Finds c.vers m.timestamp (some v)) :
    Resolved c m txn (c.move m txn.id txn.timestamp v)
  | commitStay (h : txn.status = .committed) (hle : txn.timestamp ≤ m.timestamp) :
    Resolved c m txn (c.setMeta (some ⟨[], txn.timestamp, m.deleted⟩))
  | commitMove (v : Value) (h : txn.status = .committed) (hlt : m.timestamp < txn.timestamp)
    (hv : Finds c.vers m.timestamp (some v)) :
    Resolved c m txn (c.move m [] txn.timestamp v)
  | abortLast (h : txn.status = .aborted) (hno : ∀ u < m.timestamp, c.vers u = none) :
    Resolved c m txn (c.drop m.timestamp).dropMeta
  | abortOlder (t : Timestamp) (v : Value) (h : txn.status = .aborted) (hlt : t < m.timestamp)
    (hv : c.vers t = some v) (hmax : ∀ u, t < u → u < m.timestamp → c.vers u = none) :
    Resolved c m txn
      ((c.drop m.timestamp).setMeta (some ⟨[], t, decide (v.bytes.length = 0)⟩))

end Cell

section Resolve

variable [Backend] {s : St} {k : Key} (txn : Transaction) {m : MVCCMetadata}

lemma mvccResolveIntentUpdate_run (hok : EngineOk s.eng) (hd : DataKey s.eng k) (hk : k ≠ [])
    (hm : m.timestamp.Nonneg) (ht : txn.timestamp.Nonneg) :
    (∃ v s', mvccResolveIntentUpdate k txn m s = .ok () s' ∧
      Finds (verAt s.eng k) m.timestamp (some v) ∧ Updates s.eng s'.eng k
        (((cell s.eng k).setVer txn.timestamp (some v)).drop m.timestamp)) ∨
    (mvccResolveIntentUpdate k txn m s = .error (.panic "nil value") s ∧
      Finds (verAt s.eng k) m.timestamp none) := by
  obtain ⟨r, a, b, hget, hfinds⟩ := mvccGet_spec hok hk hm
  have hread : M.read (mvccGet · k m.timestamp) s = .ok (r, a, b) s := read_ok hget
  cases r with
  | none =>
    refine Or.inr ⟨?_, hfinds⟩
    rw [mvccResolveIntentUpdate, run_bind_ok hread]
    rfl
  | some v =>
    obtain ⟨s₁, hs₁, hu₁⟩ := mvccPut_run txn hok hd ht v
    obtain ⟨s₂, hs₂, hu₂⟩ := mvccClear_run (s := s₁) hu₁.ok hu₁.dataKey m.timestamp
    rw [hu₁.cell_self] at hu₂
    refine Or.inl ⟨v, { s₂ with stats := s₂.stats.update a b 0 0 }, ?_, hfinds, hu₁.trans hu₂⟩
    rw [mvccResolveIntentUpdate, run_bind_ok hread]
    simp only
    rw [run_bind_ok hs₁, run_bind_ok hs₂]
    rfl

/-- The metadata is written before the version is looked for: a missing one is a panic. -/
lemma putMeta_update_run (hok : EngineOk s.eng) (hk : k ≠ [])
    (hm : m.timestamp.Nonneg) (ht : txn.timestamp.Nonneg) (deleted : Bool) (a b : ℕ) :
    ∃ x s₁, mvccPutMeta k txn deleted a b s = .ok x s₁ ∧
      Updates s.eng s₁.eng k
        ((cell s.eng k).setMeta (some ⟨txn.id, txn.timestamp, deleted⟩)) ∧
      ((∃ v s', mvccResolveIntentUpdate k txn m s₁ = .ok () s' ∧
        Finds (verAt s.eng k) m.timestamp (some v) ∧ Updates s.eng s'.eng k
          ((((cell s.eng k).setMeta (some ⟨txn.id, txn.timestamp, deleted⟩)).setVer
            txn.timestamp (some v)).drop m.timestamp)) ∨
      (mvccResolveIntentUpdate k txn m s₁ = .error (.panic "nil value") s₁ ∧
        Finds (verAt s.eng k) m.timestamp none)) := by
  obtain ⟨x, s₁, hs₁, hu₁⟩ := mvccPutMeta_run txn hok hk ht deleted a b
  have hver : verAt s₁.eng k = verAt s.eng k := congrArg Cell.vers hu₁.cell_self
  refine ⟨x, s₁, hs₁, hu₁, ?_⟩
  rcases mvccResolveIntentUpdate_run txn hu₁.ok hu₁.dataKey hk hm ht with
    ⟨v, s', hs', hv, hu⟩ | ⟨hs', hv⟩
  · rw [hu₁.cell_self] at hu
    exact Or.inl ⟨v, s', hs', hver ▸ hv, hu₁.trans hu⟩
  · exact Or.inr ⟨hs', hver ▸ hv⟩

/-- An abort reads the timestamp of the older version off the key that its scan has kept. -/
lemma mvccResolveIntentAbort_run (hok : EngineOk s.eng) (hd : DataKey s.eng k) (hk : k ≠ [])
    (hm : m.timestamp.Nonneg) (a b : ℕ) (hid : txn.id = []) {rec : Transaction}
    (hrec : rec.status = .aborted)
    (hkept : Backend.Copies ∨ ∀ u < m.timestamp, verAt s.eng k u = none) :
    ∃ s' c, mvccResolveIntentAbort k txn m a b s = .ok () s' ∧
      (cell s.eng k).Resolved m rec c ∧ Updates s.eng s'.eng k c := by
  obtain ⟨s₁, hs₁, hu₁⟩ := mvccClear_run hok hd m.timestamp
  have hver : ∀ u ≠ m.timestamp, verAt s₁.eng k u = verAt s.eng k u := fun u hu => by
    have : verAt s₁.eng k = _ := congrArg Cell.vers hu₁.cell_self
    rw [this]
    exact Cell.drop_vers_of_ne _ hu
  unfold mvccResolveIntentAbort
  rw [run_bind_ok hs₁]
  rcases iterate_older (k := k) hu₁.ok hm with ⟨hnil, hno⟩ | ⟨t, v, l, hcons, hlt, hv, hmax⟩
  · have hscan := scan_eq_nil hnil 1
    have hc := updates_eraseMeta (k := k) hu₁.ok hu₁.dataKey
    rw [hu₁.cell_self] at hc
    refine ⟨⟨erase s₁.eng (newMVCCKey k), (s₁.stats.update a b 0 0).update a b 0 0⟩, _, ?_,
      .abortLast hrec fun u hu => ?_, hu₁.trans hc⟩
    · simp only [bind, EStateM.bind, updateRangeStats, modify, modifyGet, MonadStateOf.modifyGet,
        EStateM.modifyGet, M.read, hscan, clearEng]
    · rw [← hno u hu, hver u hu.ne]; rfl
  · obtain ⟨x, hscan, hcopy⟩ := scan_one hcons
    obtain rfl : x = newMVCCTimeKey k t := hcopy (hkept.resolve_right fun hno =>
      absurd (hno t hlt) (by simp [← hver t hlt.ne, hv]))
    obtain ⟨x, s₂, hs₂, hu₂⟩ := mvccPutMeta_run { txn with timestamp := t }
      (s := { s₁ with stats := s₁.stats.update a b 0 0 }) hu₁.ok hk
      (hu₁.ok.ver_nonneg (hv ▸ Option.some_ne_none v)) (decide (v.bytes.length = 0)) a b
    rw [show cell ({ s₁ with stats := s₁.stats.update a b 0 0 } : St).eng k = _ from
      hu₁.cell_self] at hu₂
    refine ⟨s₂, _, ?_, .abortOlder t v hrec hlt ?_ fun u htu hu => ?_, hid ▸ hu₁.trans hu₂⟩
    · simp only [bind, EStateM.bind, updateRangeStats, modify, modifyGet, MonadStateOf.modifyGet,
        EStateM.modifyGet, M.read, hscan, decodeMVCCKey_timeKey, Except.mapError, hs₂]
      rfl
    · rw [← hv, hver t hlt.ne]; rfl
    · rw [← hmax u htu hu, hver u hu.ne]; rfl

variable {i : Intent}

/-- An intent of another transaction, or none, is left alone. -/
lemma mvccResolveIntent_skip (hd : DataKey s.eng i.key) (hk : i.key ≠ [])
    (h : ∀ m, metaAt s.eng i.key = some m → m.transactionID ≠ i.txn.id) :
    mvccResolveIntent i s = .ok () s := by
  obtain ⟨a, b, hmeta⟩ := mvccGetMeta_eq hd hk
  have hread : M.read (mvccGetMeta · i.key) s = .ok (metaAt s.eng i.key, a, b) s := read_ok hmeta
  rw [mvccResolveIntent, run_bind_ok hread]
  cases hm : metaAt s.eng i.key with
  | none => rfl
  | some m =>
    simp only [if_pos (h m hm)]
    rfl

/-- **The resolution of an intent acts on its cell**, or panics where it has to move a version
that is not there. -/
theorem mvccResolveIntent_run (hok : EngineOk s.eng) (hd : DataKey s.eng i.key) (hk : i.key ≠ [])
    (ht : i.txn.timestamp.Nonneg) (hm : metaAt s.eng i.key = some m)
    (hid : m.transactionID = i.txn.id)
    (hkept : Backend.Copies ∨
      (i.txn.status = .aborted → ∀ u < m.timestamp, verAt s.eng i.key u = none)) :
    (∃ s' c, mvccResolveIntent i s = .ok () s' ∧ (cell s.eng i.key).Resolved m i.txn c ∧
      Updates s.eng s'.eng i.key c) ∨
    (∃ s', mvccResolveIntent i s = .error (.panic "nil value") s' ∧
      i.txn.status ≠ .aborted ∧ m.timestamp < i.txn.timestamp ∧
      Finds (verAt s.eng i.key) m.timestamp none) := by
  obtain ⟨a, b, hmeta⟩ := mvccGetMeta_eq hd hk
  have hread : M.read (mvccGetMeta · i.key) s = .ok (some m, a, b) s := read_ok (hm ▸ hmeta)
  have hnn := hok.meta_nonneg hm
  rw [mvccResolveIntent, run_bind_ok hread]
  simp only [hid, ne_eq, not_true, if_false]
  cases hst : i.txn.status with
  | pending =>
    simp only [mvccResolveIntentPending, Timestamp.large_iff]
    by_cases hlt : m.timestamp < i.txn.timestamp
    · obtain ⟨x, s₁, hs₁, hu₁, h⟩ := putMeta_update_run
        { ({ timestamp := i.txn.timestamp } : Transaction) with id := i.txn.id }
        hok hk hnn ht m.deleted a b
      rw [if_pos hlt, run_bind_ok hs₁]
      rcases h with ⟨v, s', hs', hv, hu⟩ | ⟨hs', hv⟩
      · exact Or.inl ⟨s', _, hs', .pendingMove v hst hlt hv, hu⟩
      · exact Or.inr ⟨s₁, hs', by simp, hlt, hv⟩
    · rw [if_neg hlt]
      exact Or.inl ⟨s, _, rfl, .pendingStay hst (not_lt.mp hlt), updates_refl hok hd⟩
  | committed =>
    obtain ⟨x, s₁, hs₁, hu₁, h⟩ := putMeta_update_run
      ({ timestamp := i.txn.timestamp } : Transaction) hok hk hnn ht m.deleted a b
    simp only [mvccResolveIntentCommit, Timestamp.large_iff]
    rw [run_bind_ok hs₁]
    by_cases hlt : m.timestamp < i.txn.timestamp
    · rw [if_pos hlt]
      rcases h with ⟨v, s', hs', hv, hu⟩ | ⟨hs', hv⟩
      · exact Or.inl ⟨s', _, hs', .commitMove v hst hlt hv, hu⟩
      · exact Or.inr ⟨s₁, hs', by simp, hlt, hv⟩
    · rw [if_neg hlt]
      exact Or.inl ⟨s₁, _, rfl, .commitStay hst (not_lt.mp hlt), hu₁⟩
  | aborted =>
    obtain ⟨s', c, hs', hc, hu⟩ := mvccResolveIntentAbort_run
      ({ timestamp := i.txn.timestamp } : Transaction) hok hd hk hnn a b rfl hst
      (hkept.imp_right fun h => h hst)
    exact Or.inl ⟨s', c, hs', hc, hu⟩

/-- An intent of a list that does not panic is passed, with what it has done. -/
lemma mvccResolveWriteIntent_cons {s' : St} (intents : List Intent)
    (h : mvccResolveIntent i s = .ok () s') :
    mvccResolveWriteIntent (i :: intents) s = mvccResolveWriteIntent intents s' := by
  simp only [mvccResolveWriteIntent, h]

end Resolve

/-! ### Reads -/

section Get

/-- What a read at `ts` by transaction `id` answers on a cell: its own intent at the intent's
timestamp, otherwise the newest version at or below `ts`; a deleted newest version is absent. -/
inductive Cell.Reads (c : Cell) (id : Key) (ts : Timestamp) : Option Value → Prop
  | absent (hm : c.metaData = none) : Reads c id ts none
  | ownDeleted (m : MVCCMetadata) (hm : c.metaData = some m) (hid : m.transactionID = id)
    (hne : id ≠ []) (hdel : m.deleted = true) : Reads c id ts none
  | own (m : MVCCMetadata) (r : Option Value) (hm : c.metaData = some m)
    (hid : m.transactionID = id) (hne : id ≠ []) (hdel : m.deleted = false)
    (hr : Finds c.vers m.timestamp r) : Reads c id ts r
  | below (m : MVCCMetadata) (r : Option Value) (hm : c.metaData = some m)
    (hlt : ts < m.timestamp) (hid : m.transactionID = [] ∨ m.transactionID ≠ id)
    (hr : Finds c.vers ts r) : Reads c id ts r
  | committedDeleted (m : MVCCMetadata) (hm : c.metaData = some m) (hid : m.transactionID = [])
    (hle : m.timestamp ≤ ts) (hdel : m.deleted = true) : Reads c id ts none
  | committed (m : MVCCMetadata) (r : Option Value) (hm : c.metaData = some m)
    (hid : m.transactionID = []) (hle : m.timestamp ≤ ts) (hdel : m.deleted = false)
    (hr : Finds c.vers ts r) : Reads c id ts r

variable {eng : Engine} {k : Key} {ts : Timestamp} {txn : Transaction} {r : Option Value}

/-- What a read does with the metadata it finds: it stops at another transaction's intent, it
answers for a deletion, or it looks for a version, at the intent's timestamp when the intent is
its own. -/
lemma getInternal_eq (hd : DataKey eng k) (hk : k ≠ []) :
    getInternal eng k ts txn =
      match metaAt eng k with
      | none => .ok none
      | some m =>
        if m.transactionID ≠ [] ∧ m.transactionID ≠ txn.id ∧ m.timestamp ≤ ts then
          .error (.writeIntent (newWriteIntentError txn .pushTimestamp m.transactionID k))
        else if m.deleted = true ∧ (if m.transactionID = [] then m.timestamp ≤ ts
            else m.transactionID = txn.id) then .ok none
        else
          (mvccGet eng k (if m.transactionID ≠ [] ∧ m.transactionID = txn.id then m.timestamp
            else ts)).map (·.1) := by
  obtain ⟨a, b, hmeta⟩ := mvccGetMeta_eq (s := ⟨eng, {}⟩) hd hk
  simp only [getInternal, hmeta, bind, Except.bind]
  cases metaAt eng k with
  | none => rfl
  | some m =>
    have hless : ts.less m.timestamp = !decide (m.timestamp ≤ ts) := by
      rw [Bool.eq_iff_iff, Timestamp.less_iff]
      simp
    by_cases hid : m.transactionID = []
    · by_cases hle : m.timestamp ≤ ts <;> cases hdel : m.deleted <;>
        simp only [hid, hless, hle, hdel, ne_eq, not_true, not_false_iff, if_true, if_false,
          pure, Except.pure, decide_true, decide_false, Bool.not_true, Bool.not_false,
          Bool.and_false, Bool.and_true, Bool.false_eq_true, false_and, true_and, and_true] <;>
        cases mvccGet eng k ts <;> rfl
    · by_cases hown : m.transactionID = txn.id
      · have hne : txn.id ≠ [] := hown ▸ hid
        cases hdel : m.deleted <;>
          simp only [hown, hne, hdel, ne_eq, not_true, not_false_iff, if_true, if_false,
            pure, Except.pure, Bool.and_false, Bool.and_true, Bool.false_eq_true, false_and,
            true_and, and_true]
        cases mvccGet eng k m.timestamp <;> rfl
      · by_cases hle : m.timestamp ≤ ts
        · simp [hid, hown, hless, hle, throw, throwThe, MonadExceptOf.throw]
        · simp only [hid, hown, hless, hle, ne_eq, not_true, not_false_iff, if_true, if_false, pure,
            Except.pure, decide_false, Bool.not_false, Bool.false_and, Bool.false_eq_true,
            and_false]
          cases mvccGet eng k ts <;> rfl

/-- A read fails only at another transaction's intent. -/
lemma getInternal_ok (txn : Transaction) (hok : EngineOk eng) (hd : DataKey eng k) (hk : k ≠ [])
    (hts : ts.Nonneg)
    (hno : ∀ m, metaAt eng k = some m → m.transactionID ≠ [] → m.transactionID ≠ txn.id →
      ts < m.timestamp) :
    ∃ r, getInternal eng k ts txn = .ok r := by
  rw [getInternal_eq hd hk]
  cases hm : metaAt eng k with
  | none => exact ⟨none, rfl⟩
  | some m =>
    have hfree : ¬ (m.transactionID ≠ [] ∧ m.transactionID ≠ txn.id ∧ m.timestamp ≤ ts) :=
      fun h => absurd (hno m hm h.1 h.2.1) (not_lt.mpr h.2.2)
    have hget : ∀ t, t.Nonneg → ∃ r, (mvccGet eng k t).map (·.1) = .ok r := fun t ht => by
      obtain ⟨r, a, b, hget, -⟩ := mvccGet_spec (k := k) hok hk ht
      exact ⟨r, by rw [hget]; rfl⟩
    simp only [if_neg hfree]
    by_cases hgone : m.deleted = true ∧ (if m.transactionID = [] then m.timestamp ≤ ts
        else m.transactionID = txn.id)
    · exact ⟨none, if_pos hgone⟩
    · rw [if_neg hgone]
      split_ifs
      · exact hget m.timestamp (hok.meta_nonneg hm)
      · exact hget ts hts

/-- **A read that succeeds answers from its key's cell.** -/
theorem getInternal_reads (hok : EngineOk eng) (hd : DataKey eng k) (hk : k ≠ [])
    (hts : ts.Nonneg) (h : getInternal eng k ts txn = .ok r) :
    (cell eng k).Reads txn.id ts r := by
  rw [getInternal_eq hd hk] at h
  cases hm : metaAt eng k with
  | none =>
    simp only [hm, Except.ok.injEq] at h
    exact h ▸ .absent hm
  | some m =>
    have hfind : ∀ t, t.Nonneg → (mvccGet eng k t).map (·.1) = .ok r →
        Finds (cell eng k).vers t r := fun t ht hr => by
      obtain ⟨r', a', b', hget, hfinds⟩ := mvccGet_spec (k := k) hok hk ht
      rw [hget] at hr
      cases hr
      exact hfinds
    simp only [hm] at h
    by_cases hid : m.transactionID = []
    · simp only [hid, ne_eq, not_true, false_and, if_false, if_true] at h
      split_ifs at h with hgone
      · cases h
        exact .committedDeleted m hm hid hgone.2 hgone.1
      · by_cases hlt : ts < m.timestamp
        · exact .below m r hm hlt (Or.inl hid) (hfind ts hts h)
        · have hdel := Bool.eq_false_iff.mpr fun hd => hgone ⟨hd, not_lt.mp hlt⟩
          exact .committed m r hm hid (not_lt.mp hlt) hdel (hfind ts hts h)
    · by_cases hown : m.transactionID = txn.id
      · have hne : txn.id ≠ [] := hown ▸ hid
        simp only [hown, hne, ne_eq, not_true, not_false_iff, false_and, and_false, if_false,
          and_true, if_true] at h
        split_ifs at h with hdel
        · cases h
          exact .ownDeleted m hm hown hne hdel
        · exact .own m r hm hown hne (Bool.eq_false_iff.mpr hdel)
            (hfind m.timestamp (hok.meta_nonneg hm) h)
      · simp only [hid, hown, ne_eq, not_false_iff, true_and, and_false, if_false] at h
        split_ifs at h with hle
        exact .below m r hm (not_le.mp hle) (Or.inr hown) (hfind ts hts h)

end Get

end Ancestor
