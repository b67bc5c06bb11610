import Ancestor.Effect

/-!
What reads answer.

`MVCCGet` finds the newest version at or below its timestamp among whatever other keys there
are. `getInternal` puts the metadata in front of it: over the layout of a key it answers from
committed versions and from the reader's own intent, and from nothing else.
-/

namespace Ancestor

open Versions

variable {eng : Engine} {k : Key} {ts : Timestamp} {txn : Transaction}

/-! ### Versions -/

/-- **`MVCCGet` returns the newest version at or below the timestamp.** -/
theorem mvccGet_newest (hkeys : KeysOk eng) (hk : k ≠ []) (hts : ts.Nonneg) :
    (∀ t e, t ≤ ts → eng.get (newMVCCTimeKey k t) = some e →
      (∀ u, t < u → u ≤ ts → eng.get (newMVCCTimeKey k u) = none) →
      (mvccGet eng k ts).map (·.1) = readEntry (some e)) ∧
    ((∀ u ≤ ts, eng.get (newMVCCTimeKey k u) = none) →
      (mvccGet eng k ts).map (·.1) = .ok none) := by
  obtain ⟨r, a, b, hfinds, hget⟩ := mvccGetInternal_finds (k := k) hkeys hts
  have hmap : (mvccGet eng k ts).map (·.1) = readEntry r := by
    rw [mvccGet, if_neg (by simpa using hk), hget]
    cases readEntry r <;> rfl
  refine ⟨fun t e ht he hmax => ?_, fun hnone => ?_⟩
  · have hnewest : Finds (entryAt eng k) ts (some e) := ⟨t, ht, he, hmax⟩
    rw [hmap, hfinds.unique hnewest]
  · have habsent : Finds (entryAt eng k) ts none := hnone
    rw [hmap, hfinds.unique habsent]
    rfl

/-- The key `a` with a version at 3 and an intent at 7, between the record of the intent's
transaction and the extension of `a` by a zero byte. -/
def neighbours : Engine :=
  ((((((OrdMap.empty.put (newMVCCKey [97]) (.metaData ⟨[1, 49], ⟨7, 0⟩, false⟩)).put
    (newMVCCTimeKey [97] ⟨7, 0⟩) (.value { value := some { bytes := [50] } })).put
    (newMVCCTimeKey [97] ⟨3, 0⟩) (.value { value := some { bytes := [49] } })).put
    (newMVCCKey [97, 0]) (.metaData ⟨[], ⟨4, 0⟩, false⟩)).put
    (newMVCCTimeKey [97, 0] ⟨4, 0⟩) (.value { value := some { bytes := [51] } })).put
    (newMVCCKey [1, 49]) (.txn { id := [1, 49] }))

lemma engineOk_neighbours : EngineOk neighbours := by
  have hempty : EngineOk .empty := fun x e he => by simp at he
  exact (((((hempty.put_meta [97] (by decide)).put_ver [97] (by decide) _).put_ver [97]
    (by decide) _).put_meta [97, 0] (by decide)).put_ver [97, 0] (by decide) _).put_txn [1, 49] _

theorem mvccGet_newest_neighbours :
    (mvccGet neighbours [97] ⟨5, 0⟩).map (·.1) = .ok (some { bytes := [49] }) ∧
      (mvccGet neighbours [97] ⟨2, 9⟩).map (·.1) = .ok none := by
  have hkey : ([97] : Key) ≠ [] := by decide
  have hget : ∀ u, u < ⟨7, 0⟩ → u ≠ ⟨3, 0⟩ → neighbours.get (newMVCCTimeKey [97] u) = none :=
    fun u hu hne => by
      simp [neighbours, newMVCCTimeKey_inj, newMVCCTimeKey_ne_key, hu.ne, hne]
  have hfive : Timestamp.Nonneg ⟨5, 0⟩ := by decide
  have htwo : Timestamp.Nonneg ⟨2, 9⟩ := by decide
  refine ⟨(mvccGet_newest engineOk_neighbours.keysOk hkey hfive).1 ⟨3, 0⟩
    (.value { value := some { bytes := [49] } }) (by decide) ?_ fun u hlt hle => ?_,
    (mvccGet_newest engineOk_neighbours.keysOk hkey htwo).2 fun u hle => ?_⟩
  · simp [neighbours, newMVCCTimeKey_inj, newMVCCTimeKey_ne_key]
  · exact hget u (hle.trans_lt (by decide)) hlt.ne'
  · exact hget u (hle.trans_lt (by decide)) (hle.trans_lt (by decide)).ne

/-! ### Reads over the layout -/

/-- The layout of a key: no entries, or metadata that stands for the newest of its versions; what
is marked as deleted is empty. -/
inductive Covered (eng : Engine) (k : Key) : Prop
  | absent (hm : eng.get (newMVCCKey k) = none) (hv : ∀ t, verAt eng k t = none)
  | present (m : MVCCMetadata) (v : Value) (hm : eng.get (newMVCCKey k) = some (.metaData m))
    (hv : verAt eng k m.timestamp = some v) (hdel : m.deleted = true → v.bytes = [])
    (hmax : ∀ t, verAt eng k t ≠ none → t ≤ m.timestamp)

/-- The version at `t` is an intent. -/
def IntentAt (eng : Engine) (k : Key) (t : Timestamp) : Prop :=
  ∃ m ∈ metaAt eng k, m.transactionID ≠ [] ∧ m.timestamp = t

instance (eng : Engine) (k : Key) (t : Timestamp) : Decidable (IntentAt eng k t) :=
  inferInstanceAs (Decidable (∃ m ∈ metaAt eng k, _))

def committedAt (eng : Engine) (k : Key) (t : Timestamp) : Option Value :=
  if IntentAt eng k t then none else verAt eng k t

/-- What an answer shows: a value without bytes is absent. -/
def seen (r : Option Value) : Option Value := r.filter fun v => decide (v.bytes ≠ [])

/-- The newest version is an intent of another transaction, at a timestamp not above `ts`. -/
def OthersIntent (eng : Engine) (k : Key) (ts : Timestamp) (txn : Transaction) : Prop :=
  ∃ m, metaAt eng k = some m ∧ m.transactionID ≠ [] ∧ m.transactionID ≠ txn.id ∧ m.timestamp ≤ ts

def OwnIntent (m : MVCCMetadata) (txn : Transaction) : Prop :=
  m.transactionID ≠ [] ∧ m.transactionID = txn.id

section Layout

variable {m : MVCCMetadata} {r : Option Value}

lemma Covered.dataKey (h : Covered eng k) : DataKey eng k := fun e he => by
  cases h with
  | absent hm => simp [hm] at he
  | present m v hm => exact ⟨m, by simpa [hm, eq_comm] using he⟩

/-- Metadata that is there stands for the newest version. -/
lemma Covered.newest (h : Covered eng k) (hm : metaAt eng k = some m) :
    ∃ v, verAt eng k m.timestamp = some v ∧ (m.deleted = true → v.bytes = []) ∧
      ∀ t, verAt eng k t ≠ none → t ≤ m.timestamp := by
  cases h with
  | absent hm' => simp [metaAt, hm'] at hm
  | present m' v hm' hv hdel hmax =>
    obtain rfl : m' = m := by simpa [metaAt, hm'] using hm
    exact ⟨v, hv, hdel, hmax⟩

lemma committedAt_none (hm : metaAt eng k = none) : committedAt eng k = verAt eng k := by
  funext t
  rw [committedAt, if_neg]
  rintro ⟨m, hm', -⟩
  simp [hm] at hm'

lemma committedAt_of_ne (hm : metaAt eng k = some m) {t : Timestamp} (ht : t ≠ m.timestamp) :
    committedAt eng k t = verAt eng k t := by
  rw [committedAt, if_neg]
  rintro ⟨m', hm', -, rfl⟩
  rw [hm, Option.mem_some_iff] at hm'
  exact ht (hm' ▸ rfl)

/-- Metadata of a committed version hides nothing. -/
lemma committedAt_committed (hm : metaAt eng k = some m) (hid : m.transactionID = []) :
    committedAt eng k = verAt eng k := by
  funext t
  rw [committedAt, if_neg]
  rintro ⟨m', hm', hne, -⟩
  rw [hm, Option.mem_some_iff] at hm'
  exact hne (hm' ▸ hid)

/-- **A read answers from committed versions**, unless it meets its own intent. -/
lemma Covered.reads_committed (h : Covered eng k) (hr : (cell eng k).Reads txn.id ts r)
    (hown : ∀ m, metaAt eng k = some m → ¬ OwnIntent m txn) :
    ∃ r', Finds (committedAt eng k) ts r' ∧ seen r = seen r' := by
  cases hr with
  | absent hm =>
    cases h with
    | absent _ hv =>
      rw [committedAt_none hm]
      exact ⟨none, fun u _ => hv u, rfl⟩
    | present m v hm' => simp [metaAt, hm'] at hm
  | ownDeleted m hm hid hne hdel => exact absurd ⟨hid ▸ hne, hid⟩ (hown m hm)
  | own m _ hm hid hne hdel hr => exact absurd ⟨hid ▸ hne, hid⟩ (hown m hm)
  | below m _ hm hlt _ hr =>
    -- what hides an intent is above `ts`
    exact ⟨r, hr.congr fun u hu => committedAt_of_ne hm (hu.trans_lt hlt).ne, rfl⟩
  | committedDeleted m hm hid hle hdel =>
    obtain ⟨v, hv, hempty, hmax⟩ := h.newest hm
    rw [committedAt_committed hm hid]
    refine ⟨some v, finds_some hv hle fun u hu _ => hmax u hu, ?_⟩
    simp [seen, Option.filter, hempty hdel]
  | committed m _ hm hid hle hdel hr =>
    rw [committedAt_committed hm hid]
    exact ⟨r, hr, rfl⟩

/-- The reader's own intent is the newest version. -/
lemma Covered.reads_own (h : Covered eng k) (hr : (cell eng k).Reads txn.id ts r)
    (hm : metaAt eng k = some m) (hown : OwnIntent m txn) :
    r = if m.deleted then none else verAt eng k m.timestamp := by
  obtain ⟨v, hv, -, hmax⟩ := h.newest hm
  have heq : ∀ m', (cell eng k).metaData = some m' → m' = m := fun m' hm' => by
    rw [cell_metaData, hm, Option.some.injEq] at hm'
    exact hm'.symm
  obtain ⟨hne, hid⟩ := hown
  cases hr with
  | absent hm' => simp [hm] at hm'
  | ownDeleted m' hm' _ _ hdel => rw [← heq m' hm', if_pos hdel]
  | own m' _ hm' _ _ hdel hr =>
    obtain rfl := heq m' hm'
    rw [if_neg (by simp [hdel]), hv]
    exact hr.unique (finds_some hv le_rfl fun u hu _ => hmax u hu)
  | below m' _ hm' _ hid' _ =>
    obtain rfl := heq m' hm'
    exact hid'.elim (absurd · hne) (absurd hid)
  | committedDeleted m' hm' hid' => exact absurd (heq m' hm' ▸ hid') hne
  | committed m' _ hm' hid' => exact absurd (heq m' hm' ▸ hid') hne

/-- A value that a read returns is committed, or the reader's own. -/
lemma reads_source {v : Value} (hr : (cell eng k).Reads txn.id ts (some v)) :
    ∃ t, verAt eng k t = some v ∧
      ∀ m, metaAt eng k = some m → m.timestamp = t → m.transactionID ∈ [[], txn.id] := by
  have hall : ∀ {m}, (cell eng k).metaData = some m → m.transactionID ∈ [[], txn.id] →
      ∀ t m', metaAt eng k = some m' → m'.timestamp = t → m'.transactionID ∈ [[], txn.id] :=
    fun hm hid t m' hm' _ => by
      rw [cell_metaData, hm', Option.some.injEq] at hm
      exact hm ▸ hid
  cases hr with
  | own m _ hm hid _ _ hr =>
    obtain ⟨t, -, hv, -⟩ := hr
    exact ⟨t, hv, hall hm (by simp [hid]) t⟩
  | below m _ hm hlt _ hr =>
    obtain ⟨t, ht, hv, -⟩ := hr
    refine ⟨t, hv, fun m' hm' heq => ?_⟩
    rw [cell_metaData, hm', Option.some.injEq] at hm
    subst hm
    exact absurd (heq ▸ ht) (not_le.mpr hlt)
  | committed m _ hm hid _ _ hr =>
    obtain ⟨t, -, hv, -⟩ := hr
    exact ⟨t, hv, hall hm (by simp [hid]) t⟩

lemma Covered.getInternal_intent (h : Covered eng k) (hk : k ≠ [])
    (ho : OthersIntent eng k ts txn) :
    ∃ e, getInternal eng k ts txn = .error (.writeIntent e) := by
  obtain ⟨m, hm, hblock⟩ := ho
  rw [getInternal_eq h.dataKey hk]
  simp only [hm, if_pos hblock]
  exact ⟨_, rfl⟩

/-- **What a read of a covered key answers.** -/
theorem getInternal_semantics (hok : EngineOk eng) (hl : Covered eng k) (hk : k ≠ [])
    (hts : ts.Nonneg) :
    ((∃ e, getInternal eng k ts txn = .error (.writeIntent e)) ↔ OthersIntent eng k ts txn) ∧
    (¬ OthersIntent eng k ts txn → ∃ r, getInternal eng k ts txn = .ok r ∧
      (∀ m, metaAt eng k = some m → OwnIntent m txn →
        r = if m.deleted then none else verAt eng k m.timestamp) ∧
      ((∀ m, metaAt eng k = some m → ¬ OwnIntent m txn) →
        ∃ r', Finds (committedAt eng k) ts r' ∧ seen r = seen r') ∧
      ∀ v, r = some v → ∃ t, verAt eng k t = some v ∧
        ∀ m, metaAt eng k = some m → m.timestamp = t → m.transactionID ∈ [[], txn.id]) := by
  have hread : ¬ OthersIntent eng k ts txn → ∃ r, getInternal eng k ts txn = .ok r := fun hno =>
    getInternal_ok txn hok hl.dataKey hk hts fun m hm hne hid =>
      not_le.mp fun hle => hno ⟨m, hm, hne, hid, hle⟩
  refine ⟨⟨?_, hl.getInternal_intent hk⟩, fun hno => ?_⟩
  · rintro ⟨e, he⟩
    by_contra hno
    obtain ⟨r, hr⟩ := hread hno
    rw [he] at hr
    cases hr
  · obtain ⟨r, hr⟩ := hread hno
    have hreads := getInternal_reads hok hl.dataKey hk hts hr
    refine ⟨r, hr, fun m hm hown => hl.reads_own hreads hm hown, hl.reads_committed hreads, ?_⟩
    rintro v rfl
    exact reads_source hreads

lemma covered_neighbours : Covered neighbours [97] := by
  refine .present ⟨[1, 49], ⟨7, 0⟩, false⟩ { bytes := [50] } ?_ ?_ (by simp) fun t ht => ?_
  · simp [neighbours, newMVCCKey_inj, newMVCCKey_ne_timeKey]
  · simp [neighbours, verAt, newMVCCTimeKey_inj, newMVCCTimeKey_ne_key]
  · by_contra hlt
    have hseven : t ≠ ⟨7, 0⟩ := (not_le.mp hlt).ne'
    have hthree : t ≠ ⟨3, 0⟩ := fun h => hlt (h ▸ by decide)
    exact ht (by simp [neighbours, verAt, newMVCCTimeKey_inj, newMVCCTimeKey_ne_key, hseven,
      hthree])

/-- A reader with no intents meets the intent at 7, and below it finds the version at 3. -/
theorem getInternal_semantics_neighbours :
    (∃ e, getInternal neighbours [97] ⟨8, 0⟩ {} = .error (.writeIntent e)) ∧
      ∃ r r', getInternal neighbours [97] ⟨5, 0⟩ {} = .ok r ∧
        Finds (committedAt neighbours [97]) ⟨5, 0⟩ r' ∧ seen r = seen r' := by
  have hkey : ([97] : Key) ≠ [] := by decide
  have height : Timestamp.Nonneg ⟨8, 0⟩ := by decide
  have hfive : Timestamp.Nonneg ⟨5, 0⟩ := by decide
  have hm : metaAt neighbours [97] = some ⟨[1, 49], ⟨7, 0⟩, false⟩ := by
    simp [neighbours, metaAt, newMVCCKey_inj, newMVCCKey_ne_timeKey]
  have hother : ∀ m, metaAt neighbours [97] = some m → ¬ OwnIntent m {} := by
    rintro m - ⟨hne, hid⟩
    exact hne hid
  refine ⟨(getInternal_semantics engineOk_neighbours covered_neighbours hkey height).1.mpr
    ⟨_, hm, by decide, by decide, by decide⟩, ?_⟩
  have hbelow : ¬ OthersIntent neighbours [97] ⟨5, 0⟩ {} := by
    rintro ⟨m, hm', -, -, hle⟩
    rw [hm, Option.some.injEq] at hm'
    exact absurd (hm' ▸ hle) (by decide)
  obtain ⟨r, hr, -, hcommitted, -⟩ :=
    (getInternal_semantics engineOk_neighbours covered_neighbours hkey hfive).2 hbelow
  obtain ⟨r', hr', hseen⟩ := hcommitted hother
  exact ⟨r, r', hr, hr', hseen⟩

/-- The empty key is refused, and a negative timestamp is encoded before every version: a read
there returns the newest version, another transaction's intent included. -/
theorem getInternal_outside :
    EngineOk neighbours ∧ Covered neighbours [] ∧ Covered neighbours [97] ∧
      getInternal neighbours [] ⟨5, 0⟩ {} = .error .invalidKey ∧
      getInternal neighbours [97] ⟨-1, 0⟩ {} = .ok (some { bytes := [50] }) ∧
      metaAt neighbours [97] = some ⟨[1, 49], ⟨7, 0⟩, false⟩ := by
  have habsent : Covered neighbours [] := by
    refine .absent ?_ fun t => ?_
    · simp [neighbours, newMVCCKey_inj, newMVCCKey_ne_timeKey]
    · simp [neighbours, verAt, newMVCCTimeKey_inj, newMVCCTimeKey_ne_key]
  exact ⟨engineOk_neighbours, habsent, covered_neighbours, by decide +kernel, by decide +kernel,
    by decide +kernel⟩

end Layout

end Ancestor
