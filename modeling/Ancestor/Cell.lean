import Ancestor.Lib.Versions
import Ancestor.Replica

/-!
The engine seen key by key.

A user key is a cell: its metadata and its versions. On an engine whose entries are laid out
as `storage/engine/mvcc.go` lays them out, the commands act on one cell at a time, and this
module says how; nothing about encoded keys, cursors or scans is needed above it.
-/

namespace Ancestor

open M Encoding Versions

/-- The metadata of a key and its versions by timestamp. -/
structure Cell where
  metaData : Option MVCCMetadata
  vers : Timestamp → Option Value

namespace Cell

def setMeta (c : Cell) (m : Option MVCCMetadata) : Cell := { c with metaData := m }

def setVer (c : Cell) (t : Timestamp) (v : Option Value) : Cell :=
  { c with vers := Function.update c.vers t v }

@[simp] lemma setMeta_metaData (c : Cell) (m : Option MVCCMetadata) :
    (c.setMeta m).metaData = m := rfl

@[simp] lemma setMeta_vers (c : Cell) (m : Option MVCCMetadata) : (c.setMeta m).vers = c.vers := rfl

@[simp] lemma setVer_metaData (c : Cell) (t : Timestamp) (v : Option Value) :
    (c.setVer t v).metaData = c.metaData := rfl

@[simp] lemma setVer_vers (c : Cell) (t u : Timestamp) (v : Option Value) :
    (c.setVer t v).vers u = if u = t then v else c.vers u := by
  simp [setVer, Function.update_apply]

/-- The cell once a version has been cleared. -/
def drop [Backend] (c : Cell) (t : Timestamp) : Cell :=
  if Backend.clears then c.setVer t none else c

/-- The cell once its metadata has been cleared. -/
def dropMeta [Backend] (c : Cell) : Cell := if Backend.clears then c.setMeta none else c

@[simp] lemma drop_ordered (c : Cell) (t : Timestamp) :
    @drop .ordered c t = c.setVer t none := rfl

@[simp] lemma drop_badger [Slices] (c : Cell) (t : Timestamp) : @drop .badger c t = c := rfl

@[simp] lemma dropMeta_ordered (c : Cell) : @dropMeta .ordered c = c.setMeta none := rfl

@[simp] lemma dropMeta_badger [Slices] (c : Cell) : @dropMeta .badger c = c := rfl

@[simp] lemma drop_metaData [Backend] (c : Cell) (t : Timestamp) :
    (c.drop t).metaData = c.metaData := by
  unfold drop
  split_ifs <;> rfl

lemma drop_vers_of_ne [Backend] (c : Cell) {t u : Timestamp} (h : u ≠ t) :
    (c.drop t).vers u = c.vers u := by
  unfold drop
  split_ifs
  · rw [setVer_vers, if_neg h]
  · rfl

end Cell

def metaAt (eng : Engine) (k : Key) : Option MVCCMetadata :=
  match eng.get (newMVCCKey k) with
  | some (.metaData m) => some m
  | _ => none

def verAt (eng : Engine) (k : Key) (t : Timestamp) : Option Value :=
  match eng.get (newMVCCTimeKey k t) with
  | some (.value v) => v.value
  | _ => none

def recAt (eng : Engine) (id : Key) : Option Transaction :=
  match eng.get (newMVCCKey id) with
  | some (.txn t) => some t
  | _ => none

def cell (eng : Engine) (k : Key) : Cell := ⟨metaAt eng k, verAt eng k⟩

@[simp] lemma cell_metaData (eng : Engine) (k : Key) : (cell eng k).metaData = metaAt eng k := rfl

@[simp] lemma cell_vers (eng : Engine) (k : Key) : (cell eng k).vers = verAt eng k := rfl

/-- Every entry stands under a key's metadata key, or is a version with a value under a
key with a timestamp. No timestamp is negative. -/
def EngineOk (eng : Engine) : Prop :=
  ∀ x e, eng.get x = some e →
    (∃ k, x = newMVCCKey k ∧ ∀ m, e = .metaData m → m.timestamp.Nonneg) ∨
      ∃ k t v, x = newMVCCTimeKey k t ∧ t.Nonneg ∧ e = .value { value := some v }

/-- A key whose metadata key holds metadata, if anything: not a transaction record. -/
def DataKey (eng : Engine) (k : Key) : Prop :=
  ∀ e, eng.get (newMVCCKey k) = some e → ∃ m, e = .metaData m

/-- `eng'` differs from `eng` at most in the entries of `k`. -/
def SameBut (k : Key) (eng eng' : Engine) : Prop :=
  ∀ k' ≠ k, eng'.get (newMVCCKey k') = eng.get (newMVCCKey k') ∧
    ∀ t, eng'.get (newMVCCTimeKey k' t) = eng.get (newMVCCTimeKey k' t)

/-- The cell of `k` is now `c`; nothing else has changed. -/
structure Updates (eng eng' : Engine) (k : Key) (c : Cell) : Prop where
  ok : EngineOk eng'
  dataKey : DataKey eng' k
  cell_self : cell eng' k = c
  same : SameBut k eng eng'

/-! ### Views of an updated engine -/

section Views

variable (eng : Engine) (k k' : Key) (t t' : Timestamp)

@[simp] lemma metaAt_put_meta (m : MVCCMetadata) :
    metaAt (eng.put (newMVCCKey k) (.metaData m)) k' =
      if k' = k then some m else metaAt eng k' := by
  by_cases h : k' = k <;> simp [metaAt, newMVCCKey_inj, h]

@[simp] lemma metaAt_clear_meta :
    metaAt (eng.clear (newMVCCKey k)) k' = if k' = k then none else metaAt eng k' := by
  by_cases h : k' = k <;> simp [metaAt, newMVCCKey_inj, h]

@[simp] lemma metaAt_put_time (e : Entry) :
    metaAt (eng.put (newMVCCTimeKey k t) e) k' = metaAt eng k' := by
  simp [metaAt, newMVCCKey_ne_timeKey]

@[simp] lemma metaAt_clear_time :
    metaAt (eng.clear (newMVCCTimeKey k t)) k' = metaAt eng k' := by
  simp [metaAt, newMVCCKey_ne_timeKey]

@[simp] lemma verAt_put_meta (e : Entry) :
    verAt (eng.put (newMVCCKey k) e) k' t' = verAt eng k' t' := by
  simp [verAt, newMVCCTimeKey_ne_key]

@[simp] lemma verAt_clear_meta :
    verAt (eng.clear (newMVCCKey k)) k' t' = verAt eng k' t' := by
  simp [verAt, newMVCCTimeKey_ne_key]

@[simp] lemma verAt_put_time (v : MVCCValue) :
    verAt (eng.put (newMVCCTimeKey k t) (.value v)) k' t' =
      if k' = k ∧ t' = t then v.value else verAt eng k' t' := by
  by_cases h : k' = k ∧ t' = t
  · simp [verAt, h.1, h.2]
  · simp [verAt, newMVCCTimeKey_inj, h]

@[simp] lemma verAt_clear_time :
    verAt (eng.clear (newMVCCTimeKey k t)) k' t' =
      if k' = k ∧ t' = t then none else verAt eng k' t' := by
  by_cases h : k' = k ∧ t' = t
  · simp [verAt, h.1, h.2]
  · simp [verAt, newMVCCTimeKey_inj, h]

end Views

lemma EngineOk.put_meta {eng : Engine} (h : EngineOk eng) (k : Key) {m : MVCCMetadata}
    (hm : m.timestamp.Nonneg) : EngineOk (eng.put (newMVCCKey k) (.metaData m)) := by
  intro x e he
  rw [OrdMap.get_put] at he
  split_ifs at he with hx
  · cases he
    exact Or.inl ⟨k, hx, by rintro _ ⟨⟩; exact hm⟩
  · exact h x e he

lemma EngineOk.put_ver {eng : Engine} (h : EngineOk eng) (k : Key) {t : Timestamp}
    (ht : t.Nonneg) (v : Value) :
    EngineOk (eng.put (newMVCCTimeKey k t) (.value { value := some v })) := by
  intro x e he
  rw [OrdMap.get_put] at he
  split_ifs at he with hx
  · cases he
    exact Or.inr ⟨k, t, v, hx, ht, rfl⟩
  · exact h x e he

lemma EngineOk.put_txn {eng : Engine} (h : EngineOk eng) (id : Key) (r : Transaction) :
    EngineOk (eng.put (newMVCCKey id) (.txn r)) := by
  intro x e he
  rw [OrdMap.get_put] at he
  split_ifs at he with hx
  · cases he
    exact Or.inl ⟨id, hx, by rintro _ ⟨⟩⟩
  · exact h x e he

lemma EngineOk.clear {eng : Engine} (h : EngineOk eng) (x : MVCCKey) :
    EngineOk (eng.clear x) := by
  intro y e he
  rw [OrdMap.get_clear] at he
  split_ifs at he
  exact h y e he

lemma EngineOk.ver_nonneg {eng : Engine} (h : EngineOk eng) {k : Key} {t : Timestamp}
    (hv : verAt eng k t ≠ none) : t.Nonneg := by
  unfold verAt at hv
  split at hv
  · rename_i e he
    rcases h _ _ he with ⟨k', hx, -⟩ | ⟨k', t', v, hx, ht, -⟩
    · exact absurd hx (newMVCCTimeKey_ne_key _ _ _)
    · rwa [(newMVCCTimeKey_inj.mp hx).2]
  · exact absurd rfl hv

lemma EngineOk.meta_nonneg {eng : Engine} (h : EngineOk eng) {k : Key} {m : MVCCMetadata}
    (hm : metaAt eng k = some m) : m.timestamp.Nonneg := by
  unfold metaAt at hm
  split at hm
  · rename_i e he
    cases hm
    rcases h _ _ he with ⟨k', hx, ht⟩ | ⟨k', t', v, hx, -⟩
    · exact ht _ rfl
    · exact absurd hx (newMVCCKey_ne_timeKey _ _ _)
  · cases hm

/-- What is stored under a version's key is the version. -/
lemma EngineOk.get_time {eng : Engine} (h : EngineOk eng) {k : Key} {t : Timestamp} {e : Entry}
    (he : eng.get (newMVCCTimeKey k t) = some e) :
    ∃ v, e = .value { value := some v } ∧ verAt eng k t = some v := by
  rcases h _ _ he with ⟨k', hx, -⟩ | ⟨k', t', v, hx, -, rfl⟩
  · exact absurd hx (newMVCCTimeKey_ne_key _ _ _)
  · exact ⟨v, rfl, by simp [verAt, he]⟩

lemma get_of_verAt {eng : Engine} {k : Key} {t : Timestamp} {v : Value}
    (h : verAt eng k t = some v) : ∃ e, eng.get (newMVCCTimeKey k t) = some e := by
  unfold verAt at h
  split at h
  · exact ⟨_, by assumption⟩
  · cases h

/-! ### Single updates -/

lemma SameBut.trans {k : Key} {e e' e'' : Engine} (h : SameBut k e e') (h' : SameBut k e' e'') :
    SameBut k e e'' := fun k' hk =>
  ⟨(h' k' hk).1.trans (h k' hk).1, fun t => ((h' k' hk).2 t).trans ((h k' hk).2 t)⟩

lemma Updates.trans {e e' e'' : Engine} {k : Key} {c c' : Cell} (h : Updates e e' k c)
    (h' : Updates e' e'' k c') : Updates e e'' k c' :=
  ⟨h'.ok, h'.dataKey, h'.cell_self, h.same.trans h'.same⟩

lemma cell_updates {eng eng' : Engine} {k key : Key} {c : Cell} (hu : Updates eng eng' key c)
    (hne : k ≠ key) : cell eng' k = cell eng k := by
  simp only [cell, metaAt, (hu.same k hne).1, Cell.mk.injEq, true_and]
  funext t
  rw [verAt, verAt, (hu.same k hne).2]

lemma dataKey_updates {eng eng' : Engine} {k key : Key} {c : Cell} (hu : Updates eng eng' key c)
    (hne : k ≠ key) (hd : DataKey eng k) : DataKey eng' k :=
  fun e he => hd e ((hu.same k hne).1 ▸ he)

section Single

variable {eng : Engine} {k : Key} (hok : EngineOk eng)

include hok

lemma updates_refl (hd : DataKey eng k) : Updates eng eng k (cell eng k) :=
  ⟨hok, hd, rfl, fun _ _ => ⟨rfl, fun _ => rfl⟩⟩

lemma updates_putMeta {m : MVCCMetadata} (hm : m.timestamp.Nonneg) :
    Updates eng (eng.put (newMVCCKey k) (.metaData m)) k ((cell eng k).setMeta (some m)) where
  ok := hok.put_meta k hm
  dataKey := fun e he => ⟨m, by simpa [eq_comm] using he⟩
  cell_self := by simp [cell, Cell.setMeta, funext_iff]
  same := fun k' hk => by simp [newMVCCKey_inj, hk, newMVCCTimeKey_ne_key]

lemma updates_clearMeta :
    Updates eng (eng.clear (newMVCCKey k)) k ((cell eng k).setMeta none) where
  ok := hok.clear _
  dataKey := fun e he => by simp at he
  cell_self := by simp [cell, Cell.setMeta, funext_iff]
  same := fun k' hk => by simp [newMVCCKey_inj, hk, newMVCCTimeKey_ne_key]

lemma updates_putVer (hd : DataKey eng k) {t : Timestamp} (ht : t.Nonneg) (v : Value) :
    Updates eng (eng.put (newMVCCTimeKey k t) (.value { value := some v })) k
      ((cell eng k).setVer t (some v)) where
  ok := hok.put_ver k ht v
  dataKey := fun e he => hd e (by simpa [newMVCCKey_ne_timeKey] using he)
  cell_self := by
    simp only [cell, Cell.setVer, metaAt_put_time, Cell.mk.injEq, true_and]
    funext u
    by_cases hu : u = t <;> simp [hu]
  same := fun k' hk => by simp [newMVCCTimeKey_inj, hk, newMVCCKey_ne_timeKey]

lemma updates_clearVer (hd : DataKey eng k) (t : Timestamp) :
    Updates eng (eng.clear (newMVCCTimeKey k t)) k ((cell eng k).setVer t none) where
  ok := hok.clear _
  dataKey := fun e he => hd e (by simpa [newMVCCKey_ne_timeKey] using he)
  cell_self := by
    simp only [cell, Cell.setVer, metaAt_clear_time, Cell.mk.injEq, true_and]
    funext u
    by_cases hu : u = t <;> simp [hu]
  same := fun k' hk => by simp [newMVCCTimeKey_inj, hk, newMVCCKey_ne_timeKey]

lemma updates_eraseVer [Backend] (hd : DataKey eng k) (t : Timestamp) :
    Updates eng (erase eng (newMVCCTimeKey k t)) k ((cell eng k).drop t) := by
  unfold erase Cell.drop
  split_ifs
  · exact updates_clearVer hok hd t
  · exact updates_refl hok hd

lemma updates_eraseMeta [Backend] (hd : DataKey eng k) :
    Updates eng (erase eng (newMVCCKey k)) k (cell eng k).dropMeta := by
  unfold erase Cell.dropMeta
  split_ifs
  · exact updates_clearMeta hok
  · exact updates_refl hok hd

end Single

/-! ### Cursors over the versions of a key -/

section Cursors

variable {eng : Engine} {k : Key} {ts : Timestamp}

/-- An entry's key is the code of a user key, with or without a timestamp. -/
lemma EngineOk.shape (hok : EngineOk eng) {x : MVCCKey} {e : Entry} (he : eng.get x = some e) :
    ∃ k w, x = newMVCCKey k ++ w ∧ (w = [] ∨ ∃ t, t.Nonneg ∧ w = tsBytes t) := by
  rcases hok x e he with ⟨k, rfl, -⟩ | ⟨k, t, v, rfl, ht, -⟩
  · exact ⟨k, [], by simp, Or.inl rfl⟩
  · exact ⟨k, tsBytes t, newMVCCTimeKey_eq k t, Or.inr ⟨t, ht, rfl⟩⟩

/-- The test of `mvccGetInternal` on the key the cursor stands on. -/
lemma sameKey_iff {k' : Key} {w : Bytes} (hw : w = [] ∨ ∃ t, w = tsBytes t) :
    ((newMVCCKey k' ++ w).length ≠ (newMVCCTimeKey k ts).length ∨
      (newMVCCKey k' ++ w).take ((newMVCCKey k' ++ w).length - encodeTimestampSize) ≠
        (newMVCCTimeKey k ts).take ((newMVCCTimeKey k ts).length - encodeTimestampSize)) ↔
      ¬ (k' = k ∧ w ≠ []) := by
  have htake : (newMVCCTimeKey k ts).take ((newMVCCTimeKey k ts).length - encodeTimestampSize) =
      newMVCCKey k := by
    rw [newMVCCTimeKey_eq]; simp [encodeTimestampSize]
  rw [htake, ← not_and_or, not_iff_not]
  constructor
  · rintro ⟨hlen, hpre⟩
    have happ := List.take_append_drop
      ((newMVCCKey k' ++ w).length - encodeTimestampSize) (newMVCCKey k' ++ w)
    rw [hpre] at happ
    obtain ⟨hk, hdrop⟩ := encodeBytes_inj happ
    refine ⟨hk.symm, ?_⟩
    rintro rfl
    rw [hk, List.append_nil, newMVCCTimeKey_eq] at hlen
    simp at hlen
  · rintro ⟨rfl, hne⟩
    obtain ⟨t, rfl⟩ := hw.resolve_left hne
    simp [newMVCCTimeKey_eq, encodeTimestampSize]

/-- Every key of the engine is the code of a user key, with or without a timestamp that is not
negative. What stands under it does not matter. -/
def KeysOk (eng : Engine) : Prop := ∀ x e, eng.get x = some e → ∃ k, IsEntryOf k x

lemma EngineOk.keysOk (hok : EngineOk eng) : KeysOk eng := fun x e he => by
  rcases hok x e he with ⟨k, hx, -⟩ | ⟨k, t, v, hx, ht, -⟩
  · exact ⟨k, .inl hx⟩
  · exact ⟨k, .inr ⟨t, ht, hx⟩⟩

/-- What stands under the version keys of `k`. -/
def entryAt (eng : Engine) (k : Key) (t : Timestamp) : Option Entry :=
  eng.get (newMVCCTimeKey k t)

/-- What a read makes of the entry it has found. -/
def readEntry : Option Entry → Except Err (Option Value)
  | none => .ok none
  | some (.value v) => .ok v.value
  | some _ => .error .unmarshalData

lemma KeysOk.entry_nonneg (hkeys : KeysOk eng) {t : Timestamp} (h : entryAt eng k t ≠ none) :
    t.Nonneg := by
  obtain ⟨e, he⟩ := Option.ne_none_iff_exists'.mp h
  obtain ⟨k', hx | ⟨t', ht', hx⟩⟩ := hkeys _ e he
  · exact absurd hx (newMVCCTimeKey_ne_key _ _ _)
  · rwa [(newMVCCTimeKey_inj.mp hx).2]

/-- **A read of the versions finds the newest one at or below the timestamp**, whatever other
keys there are. -/
theorem mvccGetInternal_finds (hkeys : KeysOk eng) (hts : ts.Nonneg) :
    ∃ r a b, Finds (entryAt eng k) ts r ∧
      mvccGetInternal eng k ts = (readEntry r).map fun v => (v, a, b) := by
  simp only [mvccGetInternal]
  cases hseek : eng.seek (newMVCCTimeKey k ts) with
  | nil =>
    refine ⟨none, 0, 0, fun u hu => by_contra fun hne => ?_, rfl⟩
    have hle := (newMVCCTimeKey_le_iff k hts (hkeys.entry_nonneg hne)).mpr hu
    exact hne (eng.seek_nil hseek hle)
  | cons p l =>
    obtain ⟨x, e⟩ := p
    obtain ⟨hle, hget, hleast⟩ := eng.seek_head hseek
    have hbound : ∀ u ≤ ts, entryAt eng k u ≠ none → x ≤ newMVCCTimeKey k u := fun u hu hne => by
      obtain ⟨e', he'⟩ := Option.ne_none_iff_exists'.mp hne
      exact hleast _ _ ((newMVCCTimeKey_le_iff k hts (hkeys.entry_nonneg hne)).mpr hu) he'
    obtain ⟨k', hent⟩ := hkeys x e hget
    obtain ⟨w, rfl, hw⟩ : ∃ w, x = newMVCCKey k' ++ w ∧
        (w = [] ∨ ∃ t, t.Nonneg ∧ w = tsBytes t) := by
      rcases hent with rfl | ⟨t, ht, rfl⟩
      · exact ⟨[], by simp, .inl rfl⟩
      · exact ⟨tsBytes t, newMVCCTimeKey_eq k' t, .inr ⟨t, ht, rfl⟩⟩
    simp only [sameKey_iff (hw.imp_right fun ⟨t, _, ht⟩ => ⟨t, ht⟩)]
    split_ifs with hsame
    · obtain ⟨rfl, hne⟩ := hsame
      obtain ⟨t, ht, rfl⟩ := hw.resolve_left hne
      rw [← newMVCCTimeKey_eq] at hget hle hbound
      refine ⟨some e, (newMVCCTimeKey k' t).length, e.size, finds_some hget ?_ fun u hne hu => ?_,
        ?_⟩
      · exact (newMVCCTimeKey_le_iff k' hts ht).mp hle
      · exact (newMVCCTimeKey_le_iff k' ht (hkeys.entry_nonneg hne)).mp (hbound u hu hne)
      · rw [← newMVCCTimeKey_eq]
        cases e <;> rfl
    · refine ⟨none, _, 0, fun u hu => by_contra fun hne => ?_, rfl⟩
      have hk : k' = k := by
        have h' := hbound u hu hne
        rw [newMVCCTimeKey_eq] at hle h'
        exact key_of_between hle h'
      have hnil : w = [] := by_contra fun hne => hsame ⟨hk, hne⟩
      subst hk hnil
      rw [List.append_nil] at hle
      exact absurd (newMVCCKey_lt_timeKey k' ts) (not_lt.mpr hle)

/-- With values under the version keys, a read never fails. -/
theorem mvccGetInternal_spec (hok : EngineOk eng) (hts : ts.Nonneg) :
    ∃ r a b, mvccGetInternal eng k ts = .ok (r, a, b) ∧ Finds (verAt eng k) ts r := by
  have hnone : ∀ u, entryAt eng k u = none → verAt eng k u = none := fun u hu => by
    rw [verAt, show eng.get (newMVCCTimeKey k u) = none from hu]
  obtain ⟨r, a, b, hfinds, hget⟩ := mvccGetInternal_finds (k := k) hok.keysOk hts
  cases r with
  | none => exact ⟨none, a, b, hget, fun u hu => hnone u (hfinds u hu)⟩
  | some e =>
    obtain ⟨t, ht, he, hmax⟩ := hfinds
    obtain ⟨v, rfl, hv⟩ := hok.get_time he
    exact ⟨some v, a, b, hget, t, ht, hv, fun u htu hu => hnone u (hmax u htu hu)⟩

lemma mvccGet_spec (hok : EngineOk eng) (hk : k ≠ []) (hts : ts.Nonneg) :
    ∃ r a b, mvccGet eng k ts = .ok (r, a, b) ∧ Finds (verAt eng k) ts r := by
  rw [mvccGet, if_neg (by simpa using hk)]
  exact mvccGetInternal_spec hok hts

/-- **The scan of an abort stops at the newest version below the intent.** -/
theorem iterate_older (hok : EngineOk eng) (hts : ts.Nonneg) :
    (iterate eng (bytesNext (newMVCCTimeKey k ts)) (newMVCCKey (bytesNext k)) = [] ∧
      ∀ u < ts, verAt eng k u = none) ∨
    ∃ t v l, iterate eng (bytesNext (newMVCCTimeKey k ts)) (newMVCCKey (bytesNext k)) =
        (newMVCCTimeKey k t, .value { value := some v }) :: l ∧
      t < ts ∧ verAt eng k t = some v ∧ ∀ u, t < u → u < ts → verAt eng k u = none := by
  have hstop : ∀ w, newMVCCKey k ++ w < newMVCCKey (bytesNext k) := fun w => by
    simpa [newMVCCKey] using encodeBytes_lt (lt_bytesNext k) w []
  have hstart : bytesNext (newMVCCTimeKey k ts) < newMVCCKey (bytesNext k) := by
    rw [bytesNext, newMVCCTimeKey_eq, List.append_assoc]
    exact hstop _
  rw [iterate, if_pos hstart]
  cases hseek : eng.seek (bytesNext (newMVCCTimeKey k ts)) with
  | nil =>
    refine Or.inl ⟨rfl, fun u hu => by_contra fun hne => ?_⟩
    obtain ⟨v, hv⟩ := Option.ne_none_iff_exists'.mp hne
    obtain ⟨e, he⟩ := get_of_verAt hv
    have hle := (bytesNext_timeKey_le_iff k hts (hok.ver_nonneg hne)).mpr hu
    simp [eng.seek_nil hseek hle] at he
  | cons p l =>
    obtain ⟨x, e⟩ := p
    obtain ⟨hle, hget, hleast⟩ := eng.seek_head hseek
    have hbound : ∀ u < ts, verAt eng k u ≠ none → x ≤ newMVCCTimeKey k u := fun u hu hne => by
      obtain ⟨v, hv⟩ := Option.ne_none_iff_exists'.mp hne
      obtain ⟨e', he'⟩ := get_of_verAt hv
      exact hleast _ _ ((bytesNext_timeKey_le_iff k hts (hok.ver_nonneg hne)).mpr hu) he'
    by_cases hx : x < newMVCCKey (bytesNext k)
    · right
      obtain ⟨k', w, rfl, hw⟩ := hok.shape hget
      have hk : k' = k := by
        rcases lt_or_ge k k' with hlt | hge
        · -- a later key starts at `Next` or after it
          rcases (bytesNext_le hlt).lt_or_eq with hlt' | rfl
          · exact absurd (hx.trans (by simpa [newMVCCKey] using encodeBytes_lt hlt' [] w))
              (lt_irrefl _)
          · rw [← List.append_nil (newMVCCKey (bytesNext k)), List.append_assoc, List.nil_append,
              Bytes.append_lt_append_iff rfl] at hx
            simp at hx
        · refine hge.eq_or_lt.resolve_right fun hlt => ?_
          have := (lt_bytesNext _).trans_le hle
          rw [newMVCCTimeKey_eq] at this
          exact lt_asymm this (encodeBytes_lt hlt w _)
      subst hk
      rcases hw with rfl | ⟨t, ht, rfl⟩
      · have := (newMVCCKey_lt_timeKey k' ts).trans ((lt_bytesNext _).trans_le hle)
        rw [List.append_nil] at this
        exact absurd this (lt_irrefl _)
      · rw [← newMVCCTimeKey_eq] at hget hle hbound hx ⊢
        obtain ⟨v, rfl, hv⟩ := hok.get_time hget
        refine ⟨t, v, _, List.takeWhile_cons_of_pos (by simpa using hx),
          (bytesNext_timeKey_le_iff k' hts ht).mp hle, hv,
          fun u htu hu => by_contra fun hne => ?_⟩
        have := (newMVCCTimeKey_le_iff k' ht (hok.ver_nonneg hne)).mp (hbound u hu hne)
        exact absurd htu (not_lt.mpr this)
    · refine Or.inl ⟨by simp [hx], fun u hu => by_contra fun hne => hx ?_⟩
      refine (hbound u hu hne).trans_lt ?_
      rw [newMVCCTimeKey_eq]
      exact hstop _

end Cursors

end Ancestor
