import Ancestor.Effect
import Ancestor.Lib.Steps

/-!
The layout of a key: metadata that stands for the newest version, over versions of
transactions that have been committed.

On the engine that `engine.go` describes `put` and the three kinds of resolution keep it, each for
a reason of its own: a put adds a version on top, a push moves the one on top, a commit gives it up,
an abort uncovers the one below. What breaks it are requests that meet an intent where they do not
expect it.
-/

namespace Ancestor.Layout

open M Steps Versions Hoare

attribute [local instance] Backend.ordered

/-! ### Engines with owners -/

/-- An engine, the transactions whose puts have written its versions, and the transactions
that have been committed on a key. No command looks at the last two. -/
structure Owned where
  st : St := {}
  owner : Key → Timestamp → Option Key := fun _ _ => none
  committed : List (Key × Key) := []

inductive Call
  | put (req : PutRequest)
  | resolve (intents : List Intent)
  deriving DecidableEq, Repr

/-- The owners of a key's versions after a put. -/
def ownerPut (c : Cell) (req : PutRequest) (o : Timestamp → Option Key) :
    Timestamp → Option Key :=
  if c.skips req.value then o else Function.update o req.txn.timestamp (some req.txn.id)

/-- The owners of a key's versions after its intent `m` is resolved: the owner of a version
that is moved goes with it. -/
def ownerResolved (m : MVCCMetadata) (txn : Transaction) (o : Timestamp → Option Key) :
    Timestamp → Option Key :=
  if txn.status ≠ .aborted ∧ m.timestamp < txn.timestamp then
    Function.update o txn.timestamp (o m.timestamp)
  else o

namespace Owned

def put (g : Owned) (req : PutRequest) : Owned :=
  match Ancestor.put req g.st with
  | .ok _ st =>
    let owner := ownerPut (cell g.st.eng req.key) req (g.owner req.key)
    { g with st, owner := Function.update g.owner req.key owner }
  | .error _ st => { g with st }

/-- The owners follow the intent that is resolved. -/
def follow (g : Owned) (i : Intent) (st : St) : Owned :=
  match metaAt g.st.eng i.key with
  | none => { g with st }
  | some m =>
    if m.transactionID = i.txn.id then
      { st
        owner := Function.update g.owner i.key (ownerResolved m i.txn (g.owner i.key))
        committed :=
          if i.txn.status = .committed then (i.key, i.txn.id) :: g.committed else g.committed }
    else { g with st }

/-- One turn of the loop of `MVCCResolveWriteIntent`; `none` is a panic. -/
def resolve (g : Owned) (i : Intent) : Option Owned :=
  match mvccResolveIntent i g.st with
  | .ok _ st => some (g.follow i st)
  | .error (.panic _) _ => none
  | .error _ st => some { g with st }

lemma follow_st (g : Owned) (i : Intent) (st : St) : (g.follow i st).st = st := by
  unfold follow
  split
  · rfl
  · split_ifs <;> rfl

/-- The engine goes the way of `MVCCResolveWriteIntent`. -/
lemma run_resolve_st (intents : List Intent) (g : Owned) :
    match run resolve g intents with
    | some g' => mvccResolveWriteIntent intents g.st = .ok () g'.st
    | none => ∃ msg st, mvccResolveWriteIntent intents g.st = .error (.panic msg) st := by
  induction intents generalizing g with
  | nil => rfl
  | cons i intents ih =>
    simp only [run, resolve, mvccResolveWriteIntent]
    cases h : mvccResolveIntent i g.st with
    | ok u st => simpa only [Option.bind_some, follow_st] using ih (g.follow i st)
    | error e st =>
      cases e
      case panic msg => exact ⟨msg, st, rfl⟩
      all_goals simpa only [Option.bind_some] using ih { g with st }

end Owned

/-- One call; `none` is a panic. -/
def step (g : Owned) : Call → Option Owned
  | .put req => some (g.put req)
  | .resolve intents => run Owned.resolve g intents

/-! ### The layout -/

/-- The timestamps of the versions of a key. -/
def timestamps (eng : Engine) (k : Key) : List Timestamp :=
  eng.entries.filterMap fun p =>
    match decodeMVCCKey p.1 with
    | .ok (k', t, true) => if k' = k then some t else none
    | _ => none

/-- Metadata `m` stands for the newest version of `k`, which is `v`, and every other version
belongs to a committed transaction. -/
def Covers (g : Owned) (k : Key) (m : MVCCMetadata) (v : Value) : Prop :=
  (m.deleted = true ↔ v.bytes = []) ∧ (∀ t ∈ timestamps g.st.eng k, t ≤ m.timestamp) ∧
    ∀ t ∈ timestamps g.st.eng k, t ≠ m.timestamp → ∃ id ∈ g.owner k t, (k, id) ∈ g.committed

instance (g : Owned) (k : Key) (m : MVCCMetadata) (v : Value) : Decidable (Covers g k m v) :=
  inferInstanceAs
    (Decidable (_ ∧ (∀ t ∈ timestamps g.st.eng k, _) ∧ ∀ t ∈ timestamps g.st.eng k, _))

/-- The key has no entries, or metadata that covers its versions. -/
def LaidOut (g : Owned) (k : Key) : Prop :=
  (g.st.eng.get (newMVCCKey k) = none ∧ timestamps g.st.eng k = []) ∨
    ∃ m ∈ metaAt g.st.eng k, ∃ v ∈ verAt g.st.eng k m.timestamp, Covers g k m v

instance (g : Owned) (k : Key) : Decidable (LaidOut g k) :=
  inferInstanceAs (Decidable ((_ ∧ _) ∨ ∃ m ∈ metaAt g.st.eng k, _))

/-! ### Conditions on calls -/

/-- Timestamps are not negative, and a put carries the timestamp of its transaction. -/
def Call.Valid : Call → Prop
  | .put req => req.timestamp = req.txn.timestamp ∧ req.timestamp.Nonneg
  | .resolve intents => ∀ i ∈ intents, i.txn.timestamp.Nonneg

instance : (a : Call) → Decidable a.Valid
  | .put req => inferInstanceAs (Decidable (req.timestamp = req.txn.timestamp ∧ _))
  | .resolve intents => inferInstanceAs (Decidable (∀ i ∈ intents, i.txn.timestamp.Nonneg))

/-- The transaction has an ID, a value without bytes is a deletion, and a put that finds its
own intent at another timestamp neither deletes again what is deleted nor goes below an older
version. -/
def PutFits (g : Owned) (req : PutRequest) : Prop :=
  req.txn.id ≠ [] ∧ (req.value.bytes = [] → isNoneValue req.value) ∧
    ∀ m ∈ metaAt g.st.eng req.key, m.transactionID = req.txn.id → m.timestamp ≠ req.timestamp →
      ¬ (isNoneValue req.value ∧ m.deleted) ∧
      ∀ t ∈ timestamps g.st.eng req.key, t ≠ m.timestamp → t ≤ req.timestamp

instance (g : Owned) (req : PutRequest) : Decidable (PutFits g req) :=
  inferInstanceAs (Decidable (_ ∧ _ ∧ ∀ m ∈ metaAt g.st.eng req.key, _))

/-- The transaction has an ID, and an intent is not committed below its timestamp. -/
def ResolveFits (g : Owned) (i : Intent) : Prop :=
  i.txn.id ≠ [] ∧ (i.txn.status = .committed → ∀ m ∈ metaAt g.st.eng i.key,
    m.transactionID = i.txn.id → m.timestamp ≤ i.txn.timestamp)

instance (g : Owned) (i : Intent) : Decidable (ResolveFits g i) :=
  inferInstanceAs (Decidable (_ ∧ (_ → ∀ m ∈ metaAt g.st.eng i.key, _)))

def Fits (g : Owned) : Call → Prop
  | .put req => PutFits g req
  | .resolve intents => Along Owned.resolve ResolveFits g intents

instance (g : Owned) : (a : Call) → Decidable (Fits g a)
  | .put req => inferInstanceAs (Decidable (PutFits g req))
  | .resolve intents => inferInstanceAs (Decidable (Along Owned.resolve ResolveFits g intents))

/-! ### The invariant of one key -/

/-- The layout of a cell with owners `o`, where `K` are the transactions committed on it. A
cell without an intent belongs to committed transactions altogether. -/
inductive Sound (c : Cell) (o : Timestamp → Option Key) (K : Key → Prop) : Prop
  | absent (hm : c.metaData = none) (hv : ∀ t, c.vers t = none)
  | present (m : MVCCMetadata) (v : Value) (hm : c.metaData = some m)
    (hv : c.vers m.timestamp = some v) (hdel : m.deleted = true ↔ v.bytes = [])
    (hmax : ∀ t, c.vers t ≠ none → t ≤ m.timestamp)
    (hmine : m.transactionID ≠ [] → o m.timestamp = some m.transactionID)
    (hown : ∀ t, c.vers t ≠ none → t ≠ m.timestamp ∨ m.transactionID = [] →
      ∃ id, o t = some id ∧ K id)

section Sound

variable {c c' : Cell} {o : Timestamp → Option Key} {K K' : Key → Prop} {req : PutRequest}
  {m : MVCCMetadata} {txn : Transaction}

lemma Sound.mono (h : Sound c o K) (hK : ∀ id, K id → K' id) : Sound c o K' := by
  cases h with
  | absent hm hv => exact .absent hm hv
  | present m v hm hv hdel hmax hmine hown =>
    refine .present m v hm hv hdel hmax hmine fun t ht hor => ?_
    obtain ⟨id, ho, hid⟩ := hown t ht hor
    exact ⟨id, ho, hK id hid⟩

/-- What the layout says about the metadata that is there. -/
lemma Sound.of_meta (h : Sound c o K) (hm : c.metaData = some m) :
    ∃ v, c.vers m.timestamp = some v ∧ (m.deleted = true ↔ v.bytes = []) ∧
      (∀ t, c.vers t ≠ none → t ≤ m.timestamp) ∧
      (m.transactionID ≠ [] → o m.timestamp = some m.transactionID) ∧
      ∀ t, c.vers t ≠ none → t ≠ m.timestamp ∨ m.transactionID = [] →
        ∃ id, o t = some id ∧ K id := by
  cases h with
  | absent hm' _ => simp [hm] at hm'
  | present m' v hm' hv hdel hmax hmine hown =>
    rw [hm, Option.some.injEq] at hm'
    subst hm'
    exact ⟨v, hv, hdel, hmax, hmine, hown⟩

/-- A version that is written above what is there covers it. -/
lemma Sound.write (hid : txn.id ≠ []) {v : Value} (hnone : v.bytes = [] → isNoneValue v)
    (hmax : ∀ t, c.vers t ≠ none → t ≤ txn.timestamp)
    (hown : ∀ t, c.vers t ≠ none → t ≠ txn.timestamp → ∃ id, o t = some id ∧ K id) :
    Sound (c.write txn v) (Function.update o txn.timestamp (some txn.id)) K := by
  refine .present _ v rfl (by simp) ⟨bytes_of_isNoneValue, hnone⟩ (fun t ht => ?_) (by simp)
    fun t ht hor => ?_
  · by_cases htt : t = txn.timestamp
    · exact htt.le
    · exact hmax t (by simpa [htt] using ht)
  · have htt : t ≠ txn.timestamp := hor.resolve_right hid
    rw [Function.update_of_ne htt]
    exact hown t (by simpa [htt] using ht) htt

/-- **A put keeps the layout.** -/
theorem Sound.put (h : Sound c o K) (hput : c.PutTo req c')
    (hts : req.timestamp = req.txn.timestamp)
    (hid : req.txn.id ≠ []) (hnone : req.value.bytes = [] → isNoneValue req.value)
    (hmoved : ∀ m, c.metaData = some m → m.transactionID = req.txn.id →
      m.timestamp ≠ req.timestamp → ¬ (isNoneValue req.value ∧ m.deleted) ∧
        ∀ t, c.vers t ≠ none → t ≠ m.timestamp → t ≤ req.timestamp) :
    Sound c' (ownerPut c req o) K := by
  cases hput with
  | skip hskip _ => rwa [ownerPut, if_pos hskip]
  | write hskip hold hown =>
    rw [ownerPut, if_neg hskip]
    cases hm : c.metaData with
    | none =>
      have hno : ∀ t, c.vers t = none := by
        cases h with
        | absent _ hv => exact hv
        | present m _ hm' => simp [hm] at hm'
      exact Sound.write hid hnone (by simp [hno]) (by simp [hno])
    | some m =>
      obtain ⟨v, -, -, hmax, -, howned⟩ := h.of_meta hm
      by_cases hmid : m.transactionID = []
      · exact Sound.write hid hnone (fun t ht => (hmax t ht).trans (hts ▸ hold m hm hmid))
          fun t ht _ => howned t ht (Or.inr hmid)
      · have heq := (hown m hm hmid).2.trans hts
        exact Sound.write hid hnone (fun t ht => heq ▸ hmax t ht)
          fun t ht hne => howned t ht (Or.inl (heq ▸ hne))
  | movedSkip m hskip hm hne hmid hne' =>
    have hskip' : isNoneValue req.value = true ∧ m.deleted = true := by
      simpa [Cell.skips, hm] using hskip
    exact absurd hskip' (hmoved m hm hmid hne').1
  | movedWrite m hskip hm hne hmid hne' =>
    rw [ownerPut, if_neg hskip]
    obtain ⟨v, -, -, -, -, howned⟩ := h.of_meta hm
    have hle := (hmoved m hm hmid hne').2
    refine Sound.write hid hnone (fun t ht => ?_) fun t ht _ => ?_
    · by_cases htm : t = m.timestamp
      · simp [htm] at ht
      · exact hts ▸ hle t (by simpa [htm] using ht) htm
    · by_cases htm : t = m.timestamp
      · simp [htm] at ht
      · exact howned t (by simpa [htm] using ht) (Or.inl htm)

/-- The newest version is moved up; the owner goes with it. -/
lemma Sound.move {v : Value} {id : Key} {ts : Timestamp} (hlt : m.timestamp < ts)
    (hdel : m.deleted = true ↔ v.bytes = []) (hmax : ∀ t, c.vers t ≠ none → t ≤ m.timestamp)
    (hmine : id ≠ [] → o m.timestamp = some id)
    (hcom : id = [] → ∃ i, o m.timestamp = some i ∧ K i)
    (hown : ∀ t, c.vers t ≠ none → t ≠ m.timestamp → ∃ id, o t = some id ∧ K id) :
    Sound (c.move m id ts v) (Function.update o ts (o m.timestamp)) K := by
  refine .present _ v rfl (by simp [hlt.ne']) hdel (fun t ht => ?_) (by simpa using hmine)
    fun t ht hor => ?_
  · simp only [Cell.move_vers] at ht
    split_ifs at ht with htm htt
    · exact absurd rfl ht
    · exact htt.le
    · exact (hmax t ht).trans hlt.le
  · by_cases htt : t = ts
    · rw [htt, Function.update_self]
      exact hcom (hor.resolve_left (not_not.mpr htt))
    · rw [Function.update_of_ne htt]
      simp only [Cell.move_vers, htt, if_false] at ht
      split_ifs at ht with htm
      · exact absurd rfl ht
      · exact hown t ht htm

/-- **A resolution keeps the layout.** -/
theorem Sound.resolved (h : Sound c o K) (hm : c.metaData = some m)
    (hid : m.transactionID = txn.id) (hne : txn.id ≠ []) (hres : c.Resolved m txn c')
    (hle : txn.status = .committed → m.timestamp ≤ txn.timestamp) :
    Sound c' (ownerResolved m txn o) fun id => K id ∨ txn.status = .committed ∧ id = txn.id := by
  obtain ⟨v, hv, hdel, hmax, hmine, hown⟩ := h.of_meta hm
  have hmine' : o m.timestamp = some txn.id := hid ▸ hmine (hid ▸ hne)
  have hfinds : ∀ v', Finds c.vers m.timestamp (some v') → v' = v := fun v' hv' =>
    Option.some.inj (hv'.unique (finds_some hv le_rfl fun u _ hu => hu))
  have hown' : ∀ t, c.vers t ≠ none → t ≠ m.timestamp →
      ∃ id, o t = some id ∧ (K id ∨ txn.status = .committed ∧ id = txn.id) := fun t ht htm => by
    obtain ⟨id, ho, hk⟩ := hown t ht (Or.inl htm)
    exact ⟨id, ho, Or.inl hk⟩
  cases hres with
  | pendingStay hp hts =>
    rw [ownerResolved, if_neg fun hlt => absurd hlt.2 (not_lt.mpr hts)]
    exact h.mono fun _ => Or.inl
  | pendingMove v' hp hlt hv' =>
    rw [ownerResolved, if_pos ⟨by simp [hp], hlt⟩]
    obtain rfl := hfinds v' hv'
    exact Sound.move hlt hdel hmax (fun _ => hmine') (fun h => absurd h hne) hown'
  | commitStay hc hts =>
    have heq : m.timestamp = txn.timestamp := le_antisymm (hle hc) hts
    rw [ownerResolved, if_neg fun hlt => absurd hlt.2 (not_lt.mpr hts)]
    refine .present _ v rfl (by simpa [← heq] using hv) hdel (fun t ht => heq ▸ hmax t ht)
      (by simp) fun t ht _ => ?_
    by_cases htm : t = m.timestamp
    · exact ⟨txn.id, htm ▸ hmine', Or.inr ⟨hc, rfl⟩⟩
    · exact hown' t ht htm
  | commitMove v' hc hlt hv' =>
    rw [ownerResolved, if_pos ⟨by simp [hc], hlt⟩]
    obtain rfl := hfinds v' hv'
    exact Sound.move hlt hdel hmax (fun h => absurd rfl h)
      (fun _ => ⟨txn.id, hmine', Or.inr ⟨hc, rfl⟩⟩) hown'
  | abortLast ha hno =>
    rw [ownerResolved, if_neg fun hlt => hlt.1 ha]
    refine .absent rfl fun t => by_contra fun ht => ?_
    by_cases htm : t = m.timestamp
    · simp [htm] at ht
    · have ht' : c.vers t ≠ none := by simpa [htm] using ht
      exact ht' (hno t (lt_of_le_of_ne (hmax t ht') htm))
  | abortOlder t' v' ha hlt hv' hbetween =>
    rw [ownerResolved, if_neg fun hlt => hlt.1 ha]
    -- the newest version below the intent is uncovered
    have hcell : ∀ t, ((c.setVer m.timestamp none).setMeta
        (some ⟨[], t', decide (v'.bytes.length = 0)⟩)).vers t ≠ none →
        t ≠ m.timestamp ∧ c.vers t ≠ none := fun t ht => by
      by_cases htm : t = m.timestamp
      · simp [htm] at ht
      · exact ⟨htm, by simpa [htm] using ht⟩
    refine .present _ v' rfl (by simpa [hlt.ne] using hv') (by simp) (fun t ht => ?_) (by simp)
      fun t ht _ => ?_
    · obtain ⟨htm, ht⟩ := hcell t ht
      exact not_lt.mp fun htt => ht (hbetween t htt (lt_of_le_of_ne (hmax t ht) htm))
    · obtain ⟨htm, ht⟩ := hcell t ht
      exact hown' t ht htm

end Sound

/-! ### Runs -/

/-- Every entry belongs to the layout of its key. -/
structure Inv (g : Owned) : Prop where
  ok : EngineOk g.st.eng
  dataKey : ∀ k, DataKey g.st.eng k
  sound : ∀ k, Sound (cell g.st.eng k) (g.owner k) fun id => (k, id) ∈ g.committed

lemma mem_timestamps {eng : Engine} (hok : EngineOk eng) {k : Key} {t : Timestamp} :
    t ∈ timestamps eng k ↔ verAt eng k t ≠ none := by
  simp only [timestamps, List.mem_filterMap]
  constructor
  · rintro ⟨⟨x, e⟩, hmem, ht⟩
    have hget := (eng.mem_entries_iff).mp hmem
    rcases hok x e hget with ⟨k', rfl, -⟩ | ⟨k', t', v, rfl, -, rfl⟩
    · simp [decodeMVCCKey_key] at ht
    · simp only [decodeMVCCKey_timeKey, Option.ite_none_right_eq_some, Option.some.injEq] at ht
      obtain ⟨rfl, rfl⟩ := ht
      simp [verAt, hget]
  · intro hne
    obtain ⟨v, hv⟩ := Option.ne_none_iff_exists'.mp hne
    obtain ⟨e, he⟩ := get_of_verAt hv
    exact ⟨_, (eng.mem_entries_iff).mpr he, by simp [decodeMVCCKey_timeKey]⟩

/-- The layout of the cells is the layout of the entries. -/
lemma Inv.laidOut {g : Owned} (h : Inv g) (k : Key) : LaidOut g k := by
  cases h.sound k with
  | absent hm hv =>
    refine Or.inl ⟨?_, List.eq_nil_iff_forall_not_mem.mpr fun t ht => ?_⟩
    · cases hg : g.st.eng.get (newMVCCKey k) with
      | none => rfl
      | some e =>
        obtain ⟨m, rfl⟩ := h.dataKey k e hg
        simp [metaAt, hg] at hm
    · exact (mem_timestamps h.ok).mp ht (hv t)
  | present m v hm hv hdel hmax _ hown =>
    refine Or.inr ⟨m, hm, v, hv, hdel, fun t ht => ?_, fun t ht hne => ?_⟩
    · exact hmax t ((mem_timestamps h.ok).mp ht)
    · exact hown t ((mem_timestamps h.ok).mp ht) (Or.inl hne)

/-- One key's cell and owners change, and nothing else. -/
lemma Inv.updates {g g' : Owned} {key : Key} {c : Cell} {o : Timestamp → Option Key} (h : Inv g)
    (hu : Updates g.st.eng g'.st.eng key c) (howner : g'.owner = Function.update g.owner key o)
    (hcom : ∀ p, p ∈ g.committed → p ∈ g'.committed)
    (hsound : Sound c o fun id => (key, id) ∈ g'.committed) : Inv g' where
  ok := hu.ok
  dataKey := fun k => by
    by_cases hk : k = key
    · exact hk ▸ hu.dataKey
    · exact dataKey_updates hu hk (h.dataKey k)
  sound := fun k => by
    by_cases hk : k = key
    · subst hk
      rw [hu.cell_self, howner, Function.update_self]
      exact hsound
    · rw [cell_updates hu hk, howner, Function.update_of_ne hk]
      exact (h.sound k).mono fun id => hcom (k, id)

lemma put_nil {req : PutRequest} (hk : req.key = []) (s : St) :
    Ancestor.put req s = .error .invalidKey s := by
  refine run_bind_error (read_error ?_)
  simp [mvccGetMeta, hk]

lemma mvccResolveIntent_nil {i : Intent} (hk : i.key = []) (s : St) :
    mvccResolveIntent i s = .error .invalidKey s := by
  refine run_bind_error (read_error ?_)
  simp [mvccGetMeta, hk]

lemma Inv.put {g : Owned} (h : Inv g) {req : PutRequest} (hts : req.timestamp = req.txn.timestamp)
    (hnn : req.timestamp.Nonneg) (hfits : PutFits g req) : Inv (g.put req) := by
  obtain ⟨hid, hnone, hmoved⟩ := hfits
  by_cases hk : req.key = []
  · simpa only [Owned.put, put_nil hk] using h
  · have hrun := put_run req h.ok (h.dataKey req.key) hk (hts ▸ hnn)
    unfold Owned.put
    cases hput : (cell g.st.eng req.key).put req with
    | error e =>
      rw [hput] at hrun
      simpa only [hrun] using h
    | ok c =>
      rw [hput] at hrun
      obtain ⟨st, hst, hu⟩ := hrun
      simp only [hst]
      refine h.updates hu rfl (fun _ hp => hp) ((h.sound req.key).put (Cell.put_cases hput) hts hid
        hnone fun m hm hmid hne => ⟨(hmoved m hm hmid hne).1, fun t ht => ?_⟩)
      exact (hmoved m hm hmid hne).2 t ((mem_timestamps h.ok).mpr ht)

/-- A resolution goes through, and keeps the layout. -/
lemma Inv.resolve {g : Owned} (h : Inv g) {i : Intent} (hnn : i.txn.timestamp.Nonneg)
    (hfits : ResolveFits g i) : ∃ g', g.resolve i = some g' ∧ Inv g' := by
  obtain ⟨hid, hle⟩ := hfits
  by_cases hk : i.key = []
  · exact ⟨g, by simp only [Owned.resolve, mvccResolveIntent_nil hk], h⟩
  have hd := h.dataKey i.key
  by_cases hm : ∃ m, metaAt g.st.eng i.key = some m ∧ m.transactionID = i.txn.id
  · obtain ⟨m, hm, hmid⟩ := hm
    rcases mvccResolveIntent_run h.ok hd hk hnn hm hmid (.inl Backend.copies_ordered) with
      ⟨st, c, hst, hres, hu⟩ | ⟨-, -, -, -, hno⟩
    · refine ⟨g.follow i st, by simp only [Owned.resolve, hst], ?_⟩
      have hsound := (h.sound i.key).resolved hm hmid hid hres fun hc => hle hc m hm hmid
      simp only [Owned.follow, hm, hmid, if_true]
      refine h.updates hu rfl (fun p hp => ?_) (hsound.mono fun id hor => ?_)
      · split_ifs
        · exact List.mem_cons_of_mem _ hp
        · exact hp
      · rcases hor with hmem | ⟨hc, rfl⟩
        · split_ifs
          · exact List.mem_cons_of_mem _ hmem
          · exact hmem
        · simp [hc]
    · -- the intent has its version
      obtain ⟨v, hv, -⟩ := (h.sound i.key).of_meta hm
      rw [cell_vers, hno m.timestamp le_rfl] at hv
      cases hv
  · have hskip := mvccResolveIntent_skip hd hk fun m hm' hmid => hm ⟨m, hm', hmid⟩
    refine ⟨g, ?_, h⟩
    simp only [Owned.resolve, hskip, Owned.follow]
    split
    · rfl
    · rename_i m hm'
      rw [if_neg fun hmid => hm ⟨m, hm', hmid⟩]

lemma inv_empty : Inv {} where
  ok := fun x e he => by simp at he
  dataKey := fun k e he => by simp at he
  sound := fun k => .absent (by simp [metaAt]) fun t => by simp [verAt]

/-- **The layout is kept.** Along every run of valid calls that fit the state they meet, from
the empty engine, no call panics, and in the state it reaches every key has no entries or has
metadata that covers its versions. -/
theorem laidOut_run {l : List Call} (hl : Along step (fun g a => a.Valid ∧ Fits g a) {} l) :
    ∃ g, run step {} l = some g ∧ ∀ k, LaidOut g k := by
  have hstep : ∀ g a, Inv g → a.Valid ∧ Fits g a → ∃ g', step g a = some g' ∧ Inv g' := by
    rintro g a h ⟨hvalid, hfits⟩
    cases a with
    | put req => exact ⟨g.put req, rfl, h.put hvalid.1 hvalid.2 hfits⟩
    | resolve intents =>
      exact progress (fun g i h hC => h.resolve hC.1 hC.2) h (Along.and_forall hfits hvalid)
  obtain ⟨g, hg, hinv⟩ := progress hstep inv_empty hl
  exact ⟨g, hg, hinv.laidOut⟩

/-! ### Runs that fit and runs that do not -/

section Runs

/-- The transaction `n` at time `ts`. -/
def txnAt (n : UInt8) (ts : Int64) (status : TransactionStatus) : Transaction :=
  { id := [1, n], timestamp := ⟨ts, 0⟩, status }

def putAt (n : UInt8) (ts : Int64) (value : Value) : Call :=
  .put { key := [2], timestamp := ⟨ts, 0⟩, txn := txnAt n ts .pending, value }

def resolveAt (n : UInt8) (ts : Int64) (status : TransactionStatus) : Call :=
  .resolve [⟨[2], txnAt n ts status⟩]

/-- Two transactions write, the first commits, the second is pushed, deletes and is aborted. -/
theorem laidOut_run_two : ∃ g, run step {} [putAt 1 10 { bytes := [7] }, resolveAt 1 20 .committed,
    putAt 2 30 { bytes := [8] }, resolveAt 2 40 .pending, putAt 2 30 {}, resolveAt 2 30 .aborted] =
      some g ∧ ∀ k, LaidOut g k :=
  laidOut_run (by decide +kernel)

/-- An intent that a push has moved to 30 is committed at 20: the metadata says 20 and the
version stays at 30. An intent that is deleted, moved and deleted again has lost its version,
and its commit dereferences nil. -/
theorem layout_broken :
    (∃ g, run step {} [putAt 1 10 { bytes := [7] }, resolveAt 1 30 .pending,
      resolveAt 1 20 .committed] = some g ∧ ¬ LaidOut g [2]) ∧
    (∀ a ∈ [putAt 1 10 { bytes := [7] }, resolveAt 1 30 .pending, resolveAt 1 20 .committed],
      a.Valid) ∧
    run step {} [putAt 1 10 { bytes := [7] }, putAt 1 10 {}, resolveAt 1 30 .pending, putAt 1 10 {},
      resolveAt 1 40 .committed] = none := by
  refine ⟨?_, by decide, ?_⟩
  · obtain ⟨g, hg, h⟩ := Option.map_eq_some_iff.mp
      (by decide +kernel : (run step {} [putAt 1 10 { bytes := [7] }, resolveAt 1 30 .pending,
        resolveAt 1 20 .committed]).map (fun g => decide (¬ LaidOut g [2])) = some true)
    exact ⟨g, hg, of_decide_eq_true h⟩
  · exact Option.isNone_iff_eq_none.mp (by decide +kernel)

end Runs

end Ancestor.Layout
