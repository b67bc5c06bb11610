import Ancestor.Kept
import Ancestor.Record

/-!
The statistics of a range (`meta/stats.go`) and the entries they stand for, on badger.

Every write reports the sizes it takes from the range and adds to it, by hand. Metadata is
reported as it is written, and the statistics follow it. They do not follow a version that is
overwritten, a record that changes its size, and the moves and aborts of intents, which take off
what their `Clear` leaves in the engine.
-/

namespace Ancestor

/-! ### Statistics as sums -/

attribute [ext] RangeStats

namespace RangeStats

instance : Zero RangeStats := ⟨{}⟩

instance : Add RangeStats :=
  ⟨fun a b => ⟨a.totalBytes + b.totalBytes, a.totalCount + b.totalCount⟩⟩

instance : Neg RangeStats := ⟨fun a => ⟨-a.totalBytes, -a.totalCount⟩⟩

instance : Sub RangeStats :=
  ⟨fun a b => ⟨a.totalBytes - b.totalBytes, a.totalCount - b.totalCount⟩⟩

instance : AddCommGroup RangeStats where
  add_assoc _ _ _ := RangeStats.ext (Int64.add_assoc _ _ _) (Int64.add_assoc _ _ _)
  zero_add _ := RangeStats.ext (Int64.zero_add _) (Int64.zero_add _)
  add_zero _ := RangeStats.ext (Int64.add_zero _) (Int64.add_zero _)
  add_comm _ _ := RangeStats.ext (Int64.add_comm _ _) (Int64.add_comm _ _)
  neg_add_cancel _ := RangeStats.ext (Int64.add_left_neg _) (Int64.add_left_neg _)
  sub_eq_add_neg _ _ := RangeStats.ext (Int64.sub_eq_add_neg _ _) (Int64.sub_eq_add_neg _ _)
  nsmul := nsmulRec
  zsmul := zsmulRec

@[simp] lemma zero_totalBytes : (0 : RangeStats).totalBytes = 0 := rfl

@[simp] lemma zero_totalCount : (0 : RangeStats).totalCount = 0 := rfl

@[simp] lemma add_totalBytes (a b : RangeStats) :
    (a + b).totalBytes = a.totalBytes + b.totalBytes := rfl

@[simp] lemma add_totalCount (a b : RangeStats) :
    (a + b).totalCount = a.totalCount + b.totalCount := rfl

@[simp] lemma sub_totalBytes (a b : RangeStats) :
    (a - b).totalBytes = a.totalBytes - b.totalBytes := rfl

@[simp] lemma sub_totalCount (a b : RangeStats) :
    (a - b).totalCount = a.totalCount - b.totalCount := rfl

end RangeStats

namespace Stats

open M Hoare Steps

/-- What `UpdateRangeStats` counts for a pair of sizes: two zeros stand for nothing. -/
def sized (keySize valSize : ℕ) : RangeStats :=
  if keySize ≠ 0 ∨ valSize ≠ 0 then ⟨Int64.ofNat keySize + Int64.ofNat valSize, 1⟩ else 0

lemma sized_zero : sized 0 0 = 0 := rfl

lemma update_eq (rs : RangeStats) (a b c d : ℕ) :
    rs.update a b c d = rs + sized c d - sized a b := by
  unfold RangeStats.update sized
  split_ifs <;> ext <;> simp <;> grind

/-- One entry. -/
def weigh (x : MVCCKey) (e : Entry) : RangeStats :=
  ⟨Int64.ofNat x.length + Int64.ofNat e.size, 1⟩

lemma sized_of_ne_nil {x : MVCCKey} (hx : x ≠ []) (e : Entry) :
    sized x.length e.size = weigh x e := by
  rw [sized, if_pos (.inl (by simpa using hx)), weigh]

/-- The entry under a key, if there is one. -/
abbrev weightAt (eng : Engine) (x : MVCCKey) : RangeStats := eng.weightAt weigh x

/-- All entries. -/
abbrev contents (eng : Engine) : RangeStats := eng.total weigh

/-- **The statistics match the data.** -/
def Matches (s : St) : Prop :=
  s.stats.totalCount = Int64.ofNat s.eng.entries.length ∧
    s.stats.totalBytes = Int64.ofNat (s.eng.entries.map fun e => e.1.length + e.2.size).sum

/-- How far the statistics are above the entries. -/
def surplus (s : St) : RangeStats := s.stats - contents s.eng

lemma contents_eq (eng : Engine) : contents eng =
    ⟨Int64.ofNat (eng.entries.map fun e => e.1.length + e.2.size).sum,
      Int64.ofNat eng.entries.length⟩ := by
  unfold contents OrdMap.total
  induction eng.entries with
  | nil => rfl
  | cons e l ih =>
    rw [List.map_cons, List.sum_cons, ih]
    ext
    · simp [weigh, Int64.ofNat_add]
    · simp [weigh, Int64.ofNat_add]
      grind

lemma matches_iff (s : St) : Matches s ↔ surplus s = 0 := by
  rw [surplus, sub_eq_zero, contents_eq, RangeStats.ext_iff, Matches, and_comm]

/-! ### The parts of a command -/

/-- A record is under its own ID. -/
def Own (eng : Engine) : Prop := ∀ k r, eng.get (newMVCCKey k) = some (.txn r) → r.id = k

namespace Own

variable {eng : Engine} {k : Key}

lemma put_meta (h : Own eng) (k : Key) (m : MVCCMetadata) :
    Own (eng.put (newMVCCKey k) (.metaData m)) := fun k' r hr => by
  rw [OrdMap.get_put] at hr
  split_ifs at hr
  · cases hr
  · exact h k' r hr

lemma put_txn (h : Own eng) {r : Transaction} (hr : r.id = k) :
    Own (eng.put (newMVCCKey k) (.txn r)) := fun k' r' hr' => by
  rw [OrdMap.get_put] at hr'
  split_ifs at hr' with heq
  · cases hr'
    rw [hr, newMVCCKey_inj.mp heq]
  · exact h k' r' hr'

lemma put_version (h : Own eng) (k : Key) (t : Timestamp) (e : Entry) :
    Own (eng.put (newMVCCTimeKey k t) e) := fun k' r hr => by
  rw [OrdMap.get_put, if_neg (newMVCCKey_ne_timeKey _ _ _)] at hr
  exact h k' r hr

end Own

/-- The statistics are as far from the entries as they were. -/
structure Follows (s s' : St) : Prop where
  own : Own s'.eng
  surplus_eq : surplus s' = surplus s

section Parts

variable {s s₁ s₂ : St} {k : Key}

lemma Follows.refl (h : Own s.eng) : Follows s s := ⟨h, rfl⟩

lemma Follows.trans (h₁ : Follows s s₁) (h₂ : Follows s₁ s₂) : Follows s s₂ :=
  ⟨h₂.own, h₂.surplus_eq.trans h₁.surplus_eq⟩

lemma surplus_put (eng : Engine) (stats : RangeStats) (x : MVCCKey) (e : Entry) :
    surplus ⟨eng.put x e, stats⟩ = surplus ⟨eng, stats⟩ + weightAt eng x - weigh x e := by
  have h := OrdMap.total_put weigh eng x e
  rw [surplus, surplus, contents, contents, eq_sub_of_add_eq h]
  abel

lemma surplus_update (eng : Engine) (stats : RangeStats) (a b c d : ℕ) :
    surplus ⟨eng, stats.update a b c d⟩ = surplus ⟨eng, stats⟩ + sized c d - sized a b := by
  simp only [surplus, update_eq]
  abel

lemma weightAt_eq_zero {eng : Engine} {x : MVCCKey} (h : eng.get x = none) :
    weightAt eng x = 0 := by
  rw [weightAt, OrdMap.weightAt, h]
  rfl

lemma newMVCCKey_ne_nil (k : Key) : newMVCCKey k ≠ [] := by
  rintro h
  have hdec := Encoding.decodeBytes_encode k []
  rw [List.append_nil, ← newMVCCKey, h] at hdec
  cases hdec
  exact absurd h (by decide)

lemma newMVCCTimeKey_ne_nil (k : Key) (t : Timestamp) : newMVCCTimeKey k t ≠ [] := by
  rw [newMVCCTimeKey_eq]
  simp [tsBytes_ne_nil]

/-- Metadata is counted as it is written, when the old sizes are those of the entry. -/
lemma mvccPutMeta_follows (h : Own s.eng) (hk : k ≠ []) (txn : Transaction) (deleted : Bool)
    {a b : ℕ} (hab : sized a b = weightAt s.eng (newMVCCKey k)) :
    ∃ x s', mvccPutMeta k txn deleted a b s = .ok x s' ∧ Follows s s' ∧
      s'.eng = s.eng.put (newMVCCKey k) (.metaData ⟨txn.id, txn.timestamp, deleted⟩) := by
  rw [mvccPutMeta, if_neg (by simpa using hk)]
  refine ⟨_, _, rfl, ⟨h.put_meta k _, ?_⟩, rfl⟩
  rw [surplus_update, surplus_put, hab]
  rw [← sized_of_ne_nil (newMVCCKey_ne_nil k), Entry.size]
  abel

/-- A version is counted as a new one: it must not replace another. -/
lemma mvccPut_follows (h : Own s.eng) (txn : Transaction) (v : Value)
    (hnew : s.eng.get (newMVCCTimeKey k txn.timestamp) = none) :
    ∃ s', mvccPut k txn v s = .ok () s' ∧ Follows s s' := by
  refine ⟨_, rfl, h.put_version k _ _, ?_⟩
  rw [surplus_update, surplus_put, weightAt_eq_zero hnew]
  rw [← sized_of_ne_nil (newMVCCTimeKey_ne_nil k _), sized_zero, Entry.size]
  abel

lemma sized_of_getMeta {eng : Engine} {o : Option MVCCMetadata} {a b : ℕ}
    (h : mvccGetMeta eng k = .ok (o, a, b)) : sized a b = weightAt eng (newMVCCKey k) := by
  unfold mvccGetMeta at h
  split_ifs at h
  simp only at h
  unfold weightAt OrdMap.weightAt
  split at h
  · next hget =>
    cases h
    rw [hget]
    rfl
  · next m hget =>
    cases h
    rw [hget]
    exact sized_of_ne_nil (newMVCCKey_ne_nil k) (.metaData m)
  · cases h

lemma metaAt_of_getMeta {eng : Engine} {o : Option MVCCMetadata} {a b : ℕ}
    (h : mvccGetMeta eng k = .ok (o, a, b)) : k ≠ [] ∧ metaAt eng k = o := by
  cases o with
  | some m => exact metaAt_of_mvccGetMeta h
  | none =>
    unfold mvccGetMeta at h
    split_ifs at h with hk
    refine ⟨by simpa using hk, ?_⟩
    simp only at h
    unfold metaAt
    split at h
    · next hget => rw [hget]
    · cases h
    · cases h

end Parts

/-! ### Commands -/

section Commands

variable [Slices]

attribute [local instance] Backend.badger

inductive Cmd
  | put (req : PutRequest)
  | beginTransaction (txn : Transaction)
  | endTransaction (txn : Transaction) (commit : Bool)
  | heartbeatTransaction (txn : Transaction)
  | pushTransaction (req : PushTransactionRequest)
  | resolveIntent (req : ResolveIntentRequest)
  deriving DecidableEq, Repr

def Cmd.exec : Cmd → M Unit
  | .put req => Ancestor.put req
  | .beginTransaction txn => Ancestor.beginTransaction txn
  | .endTransaction txn commit => Ancestor.endTransaction txn commit
  | .heartbeatTransaction txn => do let _ ← Ancestor.heartbeatTransaction txn
  | .pushTransaction req => do let _ ← Ancestor.pushTransaction req
  | .resolveIntent req => Ancestor.resolveIntent req

/-- A command that fails keeps what it has written; a panic ends the node, and its statistics
with it. -/
def step (s : St) (c : Cmd) : Option St :=
  match c.exec s with
  | .ok _ s => some s
  | .error (.panic _) _ => none
  | .error _ s => some s

end Commands

/-! ### The commands that are counted right -/

instance (req : PutRequest) (o : Option MVCCMetadata) : Decidable (Refuses req o) :=
  match o with
  | none => isFalse fun ⟨_, h, _⟩ => by cases h
  | some m => decidable_of_iff (m.transactionID = [] ∧ req.timestamp < m.timestamp ∨
      m.transactionID ≠ [] ∧ m.transactionID ≠ req.txn.id) (by simp [Refuses])

/-- A pending record keeps its size in the change to `r`. -/
def KeepsSize (p r : Transaction) : Prop := p.status = .pending → r.size = p.size

instance (p r : Transaction) : Decidable (KeepsSize p r) := inferInstanceAs (Decidable (_ → _))

/-- A push that stores nothing, or stores a record of the same size: it finds the pushee decided
or already past the pusher, or it comes before the pushee expires and is of a lower priority, only
touches it, or moves it to a timestamp whose code is as long. -/
def PushCounted (p : Transaction) (req : PushTransactionRequest) : Prop :=
  p.status ≠ .pending ∨ req.pushType = .pushTimestamp ∧ req.txn.timestamp < p.timestamp ∨
    req.latestTimestamp.wallTime - p.lastHeartbeat ≤ txnExpiredTime ∧
      (req.txn.priority < p.priority ∨ req.pushType = .pushTouch ∨
        req.pushType = .pushTimestamp ∧
          ∀ t ∈ req.txn.timestamp.next, KeepsSize p { p with timestamp := t })

instance (p : Transaction) (req : PushTransactionRequest) : Decidable (PushCounted p req) :=
  inferInstanceAs (Decidable (_ ∨ _))

/-- The intent is another transaction's, or it is not aborted and not moved. -/
def IntentCounted (eng : Engine) (i : Intent) : Prop :=
  ∀ m ∈ metaAt eng i.key, m.transactionID = i.txn.id →
    i.txn.status ≠ .aborted ∧ i.txn.timestamp ≤ m.timestamp

instance (eng : Engine) (i : Intent) : Decidable (IntentCounted eng i) :=
  inferInstanceAs (Decidable (∀ m ∈ metaAt eng i.key, _))

/-- **The commands that the statistics follow.** A put writes a version where there is none, a
begin finds nothing under the ID, a record keeps its size when it changes, and a resolution names
its transactions and neither aborts an intent nor moves one. -/
def Counted (s : St) : Cmd → Prop
  | .put req =>
    Refuses req (metaAt s.eng req.key) ∨ Skips req (metaAt s.eng req.key) ∨
      s.eng.get (newMVCCTimeKey req.key req.txn.timestamp) = none
  | .beginTransaction txn => txn.status ≠ .pending ∨ s.eng.get (newMVCCKey txn.id) = none
  | .endTransaction txn commit =>
    ∀ p ∈ recAt s.eng txn.id, KeepsSize p { p with
      timestamp := max p.timestamp txn.timestamp
      status := if commit then .committed else .aborted }
  | .heartbeatTransaction txn =>
    (txn.status ≠ .pending ∨ (recAt s.eng txn.id).isSome) ∧
      ∀ p ∈ recAt s.eng txn.id, KeepsSize p { p with
        timestamp := max p.timestamp txn.timestamp
        lastHeartbeat :=
          if txn.lastHeartbeat > p.lastHeartbeat then txn.lastHeartbeat else p.lastHeartbeat }
  | .pushTransaction req => ∀ p ∈ recAt s.eng req.pusheeKey, PushCounted p req
  | .resolveIntent req => ∀ i ∈ req.intents, i.txn.id ≠ [] ∧ IntentCounted s.eng i

instance (s : St) (c : Cmd) : Decidable (Counted s c) :=
  match c with
  | .put _ => inferInstanceAs (Decidable (_ ∨ (_ ∧ _) ∨ _))
  | .beginTransaction _ => inferInstanceAs (Decidable (_ ∨ _))
  | .endTransaction txn _ => inferInstanceAs (Decidable (∀ p ∈ recAt s.eng txn.id, _))
  | .heartbeatTransaction txn => inferInstanceAs (Decidable (_ ∧ ∀ p ∈ recAt s.eng txn.id, _))
  | .pushTransaction req => inferInstanceAs (Decidable (∀ p ∈ recAt s.eng req.pusheeKey, _))
  | .resolveIntent req => inferInstanceAs (Decidable (∀ i ∈ req.intents, _))

/-! ### Records -/

section Records

variable {s : St} {req : Transaction} {changeType : TxnChangeType}

/-- What is stored under an ID has that ID. -/
lemma nextTxn_own (h : Own s.eng) {r : Transaction} {stored : Option Transaction}
    (hl : (if changeType ≠ .beginTxn then mvccGetTxn s.eng req.id else .ok none) = .ok stored)
    (hn : nextTxn stored req changeType = .ok (some r)) : r.id = req.id := by
  obtain ⟨-, rfl⟩ := nextTxn_some hn
  simp only [changedTxn]
  cases stored with
  | none => rfl
  | some r₀ =>
    split_ifs at hl
    · exact h req.id r₀ (get_of_mvccGetTxn hl)
    · cases hl

/-- A record that is stored is counted when there was nothing under its ID and it is reported, or
there was an entry of its size and it is not. -/
lemma mvccPutTxn_follows (h : Own s.eng) {stats : Bool}
    (hsize : ∀ stored r,
      (if changeType ≠ .beginTxn then mvccGetTxn s.eng req.id else .ok none) = .ok stored →
      nextTxn stored req changeType = .ok (some r) →
        weightAt s.eng (newMVCCKey req.id) =
          if stats then 0 else weigh (newMVCCKey req.id) (.txn r)) :
    Follows s (stateAfter (mvccPutTxn req changeType stats) s) := by
  unfold mvccPutTxn
  cases hl : (if changeType ≠ .beginTxn then mvccGetTxn s.eng req.id else .ok none) with
  | error e =>
    rw [stateAfter_error (run_bind_error (read_error hl))]
    exact .refl h
  | ok stored =>
    rw [stateAfter_congr (run_bind_ok (read_ok hl))]
    cases hn : nextTxn stored req changeType with
    | error e =>
      rw [stateAfter_error (run_bind_error (read_error (g := fun _ => .error e) rfl))]
      exact .refl h
    | ok o =>
      rw [stateAfter_congr (run_bind_ok (read_ok (g := fun _ => .ok o) rfl))]
      cases o with
      | none => exact .refl h
      | some r =>
        have hput := h.put_txn (nextTxn_own h hl hn)
        have hw := hsize stored r hl hn
        cases stats with
        | false =>
          refine ⟨hput, ?_⟩
          show surplus ⟨s.eng.put _ _, s.stats⟩ = _
          rw [surplus_put, hw, if_neg Bool.false_ne_true]
          abel
        | true =>
          refine ⟨hput, ?_⟩
          show surplus ⟨s.eng.put _ _, s.stats.update 0 0 _ _⟩ = _
          rw [surplus_update, surplus_put, hw, if_pos rfl, sized_zero,
            ← sized_of_ne_nil (newMVCCKey_ne_nil _), Entry.size]
          abel

lemma recAt_of_mvccGetTxn {eng : Engine} {id : Key} {stored : Option Transaction}
    (h : mvccGetTxn eng id = .ok stored) : recAt eng id = stored := by
  rw [recAt, get_of_mvccGetTxn h]
  cases stored <;> rfl

/-- A change of a record stores nothing, or one of the same size. -/
lemma record_follows (h : Own s.eng) (hct : changeType ≠ .beginTxn)
    (hsize : ∀ stored r, recAt s.eng req.id = stored →
      nextTxn stored req changeType = .ok (some r) → ∃ r₀, stored = some r₀ ∧ r.size = r₀.size) :
    Follows s (stateAfter (mvccPutTxn req changeType false) s) := by
  refine mvccPutTxn_follows h fun stored r hl hn => ?_
  rw [if_pos hct] at hl
  obtain ⟨r₀, rfl, hr⟩ := hsize stored r (recAt_of_mvccGetTxn hl) hn
  have hget : s.eng.get (newMVCCKey req.id) = some (.txn r₀) := get_of_mvccGetTxn hl
  simp [OrdMap.weightAt, hget, weigh, Entry.size, hr]

lemma begin_follows (h : Own s.eng) (hc : Counted s (.beginTransaction req)) :
    Follows s (stateAfter (beginTransaction req) s) := by
  refine mvccPutTxn_follows h fun stored r hl hn => ?_
  cases hl
  rcases hc with hst | hnone
  · obtain ⟨e, he⟩ := nextTxn_begin_decided hst
    rw [he] at hn
    cases hn
  · exact weightAt_eq_zero hnone

lemma end_follows (h : Own s.eng) {commit : Bool} (hc : Counted s (.endTransaction req commit)) :
    Follows s (stateAfter (endTransaction req commit) s) := by
  refine record_follows h (by decide) fun stored r hstored hn => ?_
  obtain ⟨hp, rfl⟩ := nextTxn_some hn
  cases stored with
  | none => cases commit <;> cases hp
  | some p => exact ⟨p, rfl, hc p hstored hp⟩

lemma heartbeatTransaction_state (txn : Transaction) (s : St) :
    stateAfter (heartbeatTransaction txn) s = stateAfter (mvccPutTxn txn .heartbeat false) s := by
  simp only [heartbeatTransaction, stateAfter]
  cases mvccPutTxn txn .heartbeat false s with
  | ok _ _ => rfl
  | error e _ => cases e <;> rfl

lemma heartbeat_follows (h : Own s.eng) (hc : Counted s (.heartbeatTransaction req)) :
    Follows s (stateAfter (heartbeatTransaction req) s) := by
  rw [heartbeatTransaction_state]
  refine record_follows h (by decide) fun stored r hstored hn => ?_
  obtain ⟨hp, rfl⟩ := nextTxn_some hn
  cases stored with
  | none =>
    rcases hc.1 with hst | hsome
    · exact absurd hp hst
    · rw [hstored] at hsome
      cases hsome
  | some p =>
    refine ⟨p, rfl, ?_⟩
    rw [← hc.2 p hstored hp]
    simp [changedTxn]

lemma pushRequest_counted {p txn : Transaction} {req : PushTransactionRequest}
    (h : PushCounted p req)
    (hreq : pushRequest p req.latestTimestamp req.pushType req.txn = some (txn, changeType)) :
    txn.size = p.size := by
  unfold pushRequest at hreq
  split_ifs at hreq with hst hpast hexp hprio
  · rcases h with hst' | hpast' | ⟨hle, -⟩
    · exact absurd hst' hst
    · exact absurd ⟨hpast'.1, (Timestamp.large_iff _ _).mpr hpast'.2⟩ hpast
    · exact absurd hexp (Int64.not_lt.mpr hle)
  · rcases h with hst' | hpast' | ⟨-, hprio' | htouch | ⟨hts, hsize⟩⟩
    · exact absurd hst' hst
    · exact absurd ⟨hpast'.1, (Timestamp.large_iff _ _).mpr hpast'.2⟩ hpast
    · exact absurd hprio' hprio
    · rw [htouch] at hreq
      cases hreq
    · rw [hts] at hreq
      obtain ⟨t, ht, heq⟩ := Option.map_eq_some_iff.mp hreq
      cases heq
      exact hsize t ht (not_not.mp hst)

lemma push_follows (h : Own s.eng) {req : PushTransactionRequest}
    (hc : Counted s (.pushTransaction req)) : Follows s (stateAfter (pushTransaction req) s) := by
  rw [pushTransaction, processPushTransaction_state]
  split
  · next p hg =>
    split
    · next txn changeType hreq =>
      have hrec : recAt s.eng req.pusheeKey = some p := recAt_of_mvccGetTxn hg
      obtain ⟨hid, hct⟩ := pushRequest_spec hreq
      -- the record that the change looks up is the pushee
      have hrec' : recAt s.eng txn.id = some p := by
        rw [hid, h req.pusheeKey p (get_of_mvccGetTxn hg), hrec]
      refine record_follows h (by rcases hct with ⟨rfl, -⟩ | ⟨rfl, -⟩ <;> decide)
        fun stored r hstored hn => ?_
      rw [hrec'] at hstored
      subst hstored
      rw [nextTxn_pushRequest hreq] at hn
      cases hn
      exact ⟨p, rfl, pushRequest_counted (hc p hrec) hreq⟩
    · exact .refl h
  · exact .refl h

end Records

section Shipped

variable [Slices]

attribute [local instance] Backend.badger

/-! ### Puts and intents -/

section Puts

variable {s : St} {req : PutRequest}

/-- A put follows the entries when it is refused, writes nothing, or overwrites no version. What
it clears of its own moved intent stays. -/
lemma put_follows (h : Own s.eng) (hc : Counted s (.put req)) :
    Follows s (stateAfter (put req) s) := by
  rw [put]
  cases hg : mvccGetMeta s.eng req.key with
  | error e =>
    rw [stateAfter_error (run_bind_error (read_error hg))]
    exact .refl h
  | ok x =>
    obtain ⟨o, a, b⟩ := x
    obtain ⟨hk, ho⟩ := metaAt_of_getMeta hg
    have hab := sized_of_getMeta hg
    simp only [Counted, ho] at hc
    rw [stateAfter_congr (run_bind_ok (read_ok hg))]
    simp only
    by_cases href : Refuses req o
    · obtain ⟨e, he⟩ := putCheck_of_refuses (s := s) href
      rw [stateAfter_error (run_bind_error he)]
      exact .refl h
    rw [stateAfter_congr (run_bind_ok (putCheck_of_not_refuses href)), dropMoved_badger]
    by_cases hskip : isNoneValue req.value = true ∧ o.elim true (·.deleted) = true
    · rw [if_pos (by simpa using hskip)]
      exact .refl h
    · rw [if_neg (by simpa using hskip)]
      have hnew := (hc.resolve_left href).resolve_left hskip
      obtain ⟨x, s₁, hs₁, hf₁, he₁⟩ :=
        mvccPutMeta_follows h hk req.txn (isNoneValue req.value) hab
      have hnew₁ : s₁.eng.get (newMVCCTimeKey req.key req.txn.timestamp) = none := by
        rw [he₁, OrdMap.get_put, if_neg (newMVCCTimeKey_ne_key _ _ _), hnew]
      obtain ⟨s₂, hs₂, hf₂⟩ := mvccPut_follows hf₁.own req.txn req.value hnew₁
      rw [putDataAndMeta, stateAfter_congr (run_bind_ok hs₁), stateAfter_ok hs₂]
      exact hf₁.trans hf₂

end Puts

section Intents

variable {s s' : St} {i j : Intent} {l : List Intent}

/-- An intent that is counted right keeps its metadata or gives it up. -/
lemma resolveStep_follows (h : Own s.eng) (hi : IntentCounted s.eng i)
    (hs : resolveStep s i = some s') :
    Follows s s' ∧ (s'.eng = s.eng ∨ ∃ m, m.transactionID = [] ∧
      s'.eng = s.eng.put (newMVCCKey i.key) (.metaData m)) := by
  by_cases hfound : i.key ≠ [] ∧ ∃ m, metaAt s.eng i.key = some m ∧ m.transactionID = i.txn.id
  swap
  · rw [resolveStep_unfound hfound] at hs
    cases hs
    exact ⟨.refl h, .inl rfl⟩
  obtain ⟨hk, m, hm, hid⟩ := hfound
  obtain ⟨hst, hle⟩ := hi m hm hid
  have hg : mvccGetMeta s.eng i.key = .ok (some m, (newMVCCKey i.key).length, m.size) := by
    rw [mvccGetMeta, if_neg (by simpa using hk)]
    simp only [get_of_metaAt hm]
  rw [resolveStep, mvccResolveIntent, run_bind_ok (read_ok hg)] at hs
  simp only [hid, ne_eq, not_true, if_false] at hs
  cases hstatus : i.txn.status with
  | pending =>
    simp only [hstatus, mvccResolveIntentPending, Timestamp.large_iff,
      if_neg (not_lt.mpr hle)] at hs
    cases hs
    exact ⟨.refl h, .inl rfl⟩
  | committed =>
    obtain ⟨x, s₁, hs₁, hf, he⟩ := mvccPutMeta_follows h hk { timestamp := i.txn.timestamp }
      m.deleted (sized_of_getMeta hg)
    simp only [hstatus, mvccResolveIntentCommit, Timestamp.large_iff,
      if_neg (not_lt.mpr hle)] at hs
    rw [run_bind_ok hs₁] at hs
    cases hs
    exact ⟨hf, .inr ⟨_, rfl, he⟩⟩
  | aborted => exact absurd hstatus hst

lemma IntentCounted.step (h : Own s.eng) (hi : IntentCounted s.eng i) (hid : j.txn.id ≠ [])
    (hj : IntentCounted s.eng j) (hs : resolveStep s i = some s') : IntentCounted s'.eng j := by
  rcases (resolveStep_follows h hi hs).2 with he | ⟨m', hm', he⟩
  · rwa [IntentCounted, he]
  · intro m hm hown
    have hne : j.key ≠ i.key := by
      intro heq
      rw [he, heq, metaAt_put_meta, if_pos rfl] at hm
      cases hm
      exact hid (hown.symm.trans hm')
    rw [resolveStep_meta hs hne] at hm
    exact hj m hm hown

/-- What holds of the metadata before the list holds at each turn. -/
lemma resolve_follows (h : Own s.eng) (hl : ∀ i ∈ l, i.txn.id ≠ [] ∧ IntentCounted s.eng i)
    (hrun : run resolveStep s l = some s') : Follows s s' := by
  induction l generalizing s with
  | nil =>
    cases hrun
    exact .refl h
  | cons i l ih =>
    obtain ⟨s₁, hs₁, hrest⟩ := run_cons.mp hrun
    have hi := (hl i List.mem_cons_self).2
    have hf := (resolveStep_follows h hi hs₁).1
    refine hf.trans (ih hf.own (fun j hj => ?_) hrest)
    obtain ⟨hid, hj⟩ := hl j (List.mem_cons_of_mem i hj)
    exact ⟨hid, hi.step h hid hj hs₁⟩

/-- A list that does not panic is a run of its turns. -/
lemma run_of_resolve
    (h : (match mvccResolveWriteIntent l s with
      | .ok _ s => some s
      | .error (.panic _) _ => none
      | .error _ s => some s) = some s') : run resolveStep s l = some s' := by
  induction l generalizing s with
  | nil => exact h
  | cons i l ih =>
    simp only [mvccResolveWriteIntent] at h
    rw [run, resolveStep]
    cases hrun : mvccResolveIntent i s with
    | ok u s₁ =>
      rw [hrun] at h
      exact ih h
    | error e s₁ =>
      rw [hrun] at h
      cases e
      case panic msg => cases h
      all_goals exact ih h

end Intents

/-! ### Runs -/

section Runs

variable {s s' : St} {c : Cmd}

omit [Slices] in
lemma stateAfter_void {α : Type} (m : M α) (s : St) :
    stateAfter (do let _ ← m : M Unit) s = stateAfter m s := by
  cases hm : m s with
  | ok a s' => rw [stateAfter_ok hm, stateAfter_congr (run_bind_ok hm)]; rfl
  | error e s' => rw [stateAfter_error hm, stateAfter_error (run_bind_error hm)]

/-- A command that does not panic goes on with what it has written. -/
lemma state_of_step (h : step s c = some s') : s' = stateAfter c.exec s := by
  unfold step at h
  unfold stateAfter
  split at h
  · next heq =>
    cases h
    rw [heq]
  · cases h
  · next heq =>
    cases h
    rw [heq]

/-- **The statistics follow a command that is counted right.** -/
theorem step_follows (h : Own s.eng) (hc : Counted s c) (hs : step s c = some s') :
    Follows s s' := by
  cases c with
  | put req =>
    rw [state_of_step hs]
    exact put_follows h hc
  | beginTransaction txn =>
    rw [state_of_step hs]
    exact begin_follows h hc
  | endTransaction txn commit =>
    rw [state_of_step hs]
    exact end_follows h hc
  | heartbeatTransaction txn =>
    rw [state_of_step hs, Cmd.exec, stateAfter_void]
    exact heartbeat_follows h hc
  | pushTransaction req =>
    rw [state_of_step hs, Cmd.exec, stateAfter_void]
    exact push_follows h hc
  | resolveIntent req => exact resolve_follows h hc (run_of_resolve hs)

/-- **In a run of commands that are counted right the statistics always match the data.** -/
theorem matches_of_counted {l : List Cmd} (h : Along step Counted {} l) :
    Always step Matches {} l := by
  have hempty : Own (OrdMap.empty : Engine) := fun k r hr => by simp at hr
  have hinv : Always step (fun s => Own s.eng ∧ Matches s) {} l := by
    refine always_of_along (fun s c s' hs hc hstep => ?_) ⟨hempty, rfl, rfl⟩ h
    have hf := step_follows hs.1 hc hstep
    exact ⟨hf.own, (matches_iff s').mpr (hf.surplus_eq.trans ((matches_iff s).mp hs.2))⟩
  exact hinv.imp fun s hs => hs.2

end Runs

end Shipped

section Traces

attribute [local instance] Slices.twoItems Backend.badger

/-- A transaction that begins, writes the key `a`, and is committed. -/
def committedWrite : List Cmd :=
  [.beginTransaction { id := [0x01], timestamp := ⟨5, 0⟩ },
    .put { key := [0x02, 0x61], timestamp := ⟨5, 0⟩, txn := { id := [0x01], timestamp := ⟨5, 0⟩ },
           value := { bytes := [0x61] } },
    .resolveIntent { key := [0x02, 0x61], intents :=
      [⟨[0x02, 0x61], { id := [0x01], status := .committed, timestamp := ⟨5, 0⟩ }⟩] }]

theorem matches_of_counted_committedWrite : Always step Matches {} committedWrite :=
  matches_of_counted (by decide +kernel)

/-- A transaction that writes the key `a` twice: its version is counted twice. -/
theorem rewritten_counted_twice :
    ∃ s, run step {}
      [.put { key := [0x02, 0x61], timestamp := ⟨5, 0⟩
              txn := { id := [0x01], timestamp := ⟨5, 0⟩ }
              value := { bytes := [0x61] } },
        .put { key := [0x02, 0x61], timestamp := ⟨5, 0⟩
               txn := { id := [0x01], timestamp := ⟨5, 0⟩ }
               value := { bytes := [0x62] } }] = some s ∧
      s.stats.totalCount = 3 ∧ s.eng.entries.length = 2 ∧ ¬ Matches s := by
  refine ⟨_, rfl, by decide +kernel, by decide +kernel, ?_⟩
  rintro ⟨hcount, -⟩
  exact absurd hcount (by decide +kernel)

end Traces

end Stats

end Ancestor
