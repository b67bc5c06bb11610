import Ancestor.Apply
import Ancestor.Record
import Ancestor.Lib.Lockstep

/-!
The replicas of a range as copies of one state machine (`storage/replica.go`,
`storage/replica_command.go`, `storage/engine/mvcc.go`).

A command that raft has committed is executed on every node that has a replica of the range. The
nodes have other ranges as well, so that their engines differ, and a cursor of a command may stop
on what is there on one node only. What a command answers and what it leaves behind depends on the
entries of the keys it names, and on nothing else.
-/

namespace Ancestor

open M Hoare

/-! ### Engines that agree on some keys -/

/-- Every entry from `txnPrefix` on stands under the metadata key or a version key of a key. What is
below belongs to raft and to the node. -/
def DataEncoded (eng : Engine) : Prop :=
  ∀ x e, eng.get x = some e → txnPrefix ≤ x → ∃ k, x ∈ entryKeys k

/-- The engines hold the same entries of the keys in `S`, which are keys of records and of users,
and every record of these keys stands under its own ID. What else they hold may differ. -/
structure AgreeOn (S : Set Key) (eng eng' : Engine) : Prop where
  encoded : DataEncoded eng
  encoded' : DataEncoded eng'
  data : ∀ k ∈ S, txnPrefix ≤ k
  same : ∀ k ∈ S, ∀ x ∈ entryKeys k, eng.get x = eng'.get x
  records : ∀ k ∈ S, ∀ r, eng.get (newMVCCKey k) = some (.txn r) → r.id = k

lemma DataEncoded.put {eng : Engine} (h : DataEncoded eng) {x : MVCCKey} {k : Key}
    (hx : x ∈ entryKeys k) (e : Entry) : DataEncoded (eng.put x e) := by
  intro y e' he' hy
  rw [OrdMap.get_put] at he'
  split_ifs at he' with hxy
  · exact ⟨k, hxy ▸ hx⟩
  · exact h y e' he' hy

lemma DataEncoded.clear {eng : Engine} (h : DataEncoded eng) (x : MVCCKey) :
    DataEncoded (eng.clear x) := by
  intro y e he hy
  rw [OrdMap.get_clear] at he
  split_ifs at he
  exact h y e he hy

/-- The entries of a key of a record or a user are from `txnPrefix` on. -/
lemma txnPrefix_le_entry {k : Key} (hk : txnPrefix ≤ k) (w : Bytes) :
    txnPrefix ≤ newMVCCKey k ++ w := by
  refine not_lt.mp fun hlt => ?_
  exact absurd ((encodeBytes_lt_raw_iff (by decide) k w).mp hlt) (not_lt.mpr hk)

/-- Walks meet the same entries when the engines have the same ones between the bounds. -/
lemma walk_congr {eng eng' : Engine} {a b : MVCCKey}
    (h : ∀ x, a ≤ x → x < b → eng.get x = eng'.get x) :
    (eng.seek a).takeWhile (fun e => decide (e.1 < b)) =
      (eng'.seek a).takeWhile fun e => decide (e.1 < b) := by
  have hsorted : ∀ e : Engine,
      ((e.seek a).takeWhile fun p => decide (p.1 < b)).Pairwise fun p q => p.1 < q.1 := fun e =>
    (e.sorted_seek a).sublist (List.takeWhile_sublist _)
  refine OrdMap.eq_of_mem_iff (hsorted eng) (hsorted eng') ?_
  rintro ⟨x, e⟩
  rw [mem_walk, mem_walk]
  exact and_congr_right fun hx => by rw [h x hx.1 hx.2]

section Agree

variable {S : Set Key} {eng eng' : Engine} {k : Key} {x : MVCCKey}

lemma AgreeOn.symm (h : AgreeOn S eng eng') : AgreeOn S eng' eng where
  encoded := h.encoded'
  encoded' := h.encoded
  data := h.data
  same := fun k hk x hx => (h.same k hk x hx).symm
  records := fun k hk r hr => h.records k hk r (by rw [h.same k hk _ (metaKey_mem k), hr])

lemma AgreeOn.trans {eng'' : Engine} (h : AgreeOn S eng eng') (h' : AgreeOn S eng' eng'') :
    AgreeOn S eng eng'' :=
  ⟨h.encoded, h'.encoded', h.data, fun k hk x hx => (h.same k hk x hx).trans (h'.same k hk x hx),
    h.records⟩

lemma AgreeOn.put (h : AgreeOn S eng eng') (hx : x ∈ entryKeys k) (e : Entry)
    (hrec : ∀ r, e = .txn r → x = newMVCCKey r.id) : AgreeOn S (eng.put x e) (eng'.put x e) where
  encoded := h.encoded.put hx e
  encoded' := h.encoded'.put hx e
  data := h.data
  same := fun k' hk' y hy => by rw [OrdMap.get_put, OrdMap.get_put, h.same k' hk' y hy]
  records := fun k' hk' r hr => by
    rw [OrdMap.get_put] at hr
    split_ifs at hr with hxk
    · rw [Option.some.injEq] at hr
      exact (newMVCCKey_inj.mp (hxk.trans (hrec r hr))).symm
    · exact h.records k' hk' r hr

lemma AgreeOn.clear (h : AgreeOn S eng eng') (x : MVCCKey) :
    AgreeOn S (eng.clear x) (eng'.clear x) where
  encoded := h.encoded.clear x
  encoded' := h.encoded'.clear x
  data := h.data
  same := fun k' hk' y hy => by rw [OrdMap.get_clear, OrdMap.get_clear, h.same k' hk' y hy]
  records := fun k' hk' r hr => by
    rw [OrdMap.get_clear] at hr
    split_ifs at hr
    exact h.records k' hk' r hr

lemma AgreeOn.erase [Backend] (h : AgreeOn S eng eng') (x : MVCCKey) :
    AgreeOn S (erase eng x) (erase eng' x) := by
  unfold Ancestor.erase
  split_ifs
  · exact h.clear x
  · exact h

/-- The entries from a version key of `k` up to the next key are entries of `k`. -/
lemma DataEncoded.key_of_walk (h : DataEncoded eng) {w : Bytes} {e : Entry} (hk : txnPrefix ≤ k)
    (hlow : newMVCCKey k ++ w ≤ x) (hhigh : x < newMVCCKey (bytesNext k))
    (he : eng.get x = some e) : x ∈ entryKeys k := by
  obtain ⟨k', hx⟩ := h x e he ((txnPrefix_le_entry hk w).trans hlow)
  have hle : k' ≤ k := le_iff_lt_bytesNext.mpr ((lt_newMVCCKey_iff hx _).mp hhigh)
  rcases hle.lt_or_eq with hlt | rfl
  · obtain ⟨v, rfl⟩ := entryKeys_eq hx
    exact absurd (Encoding.encodeBytes_lt hlt v w) (not_lt.mpr hlow)
  · exact hx

/-- **A walk over the versions of a key** meets the same entries on both engines. -/
lemma AgreeOn.walk (h : AgreeOn S eng eng') (hk : k ∈ S) (w : Bytes) :
    (eng.seek (newMVCCKey k ++ w)).takeWhile (fun e => decide (e.1 < newMVCCKey (bytesNext k))) =
      (eng'.seek (newMVCCKey k ++ w)).takeWhile
        fun e => decide (e.1 < newMVCCKey (bytesNext k)) := by
  refine walk_congr fun x hlow hhigh => ?_
  by_cases hx : x ∈ entryKeys k
  · exact h.same k hk x hx
  · have hnone : ∀ {e : Engine}, DataEncoded e → e.get x = none := fun {e} henc => by
      by_contra hne
      obtain ⟨v, hv⟩ := Option.ne_none_iff_exists'.mp hne
      exact hx (henc.key_of_walk (h.data k hk) hlow hhigh hv)
    rw [hnone h.encoded, hnone h.encoded']

end Agree

/-! ### Reads -/

/-- What a read makes of the first entry of the walk over the versions. -/
def versionRead : Option (MVCCKey × Entry) → Except Err (Option Value × ℕ × ℕ)
  | none => .ok (none, 0, 0)
  | some (x, .value v) => .ok (v.value, x.length, v.size)
  | some _ => .error .unmarshalData

/-- Two reads alike: sizes count only with a value. -/
def SameRead (a b : Option Value × ℕ × ℕ) : Prop := a.1 = b.1 ∧ (a.1 ≠ none → a = b)

section Reads

variable {S : Set Key} {eng eng' : Engine} {k : Key}

/-- **A read looks at the first entry of the walk** over the versions of its key. Past them the
cursor may stop on the entry of another key, of which it takes the size. -/
lemma mvccGetInternal_walk (h : DataEncoded eng) (hk : txnPrefix ≤ k) (ts : Timestamp) :
    (∃ p l, (eng.seek (newMVCCTimeKey k ts)).takeWhile
          (fun e => decide (e.1 < newMVCCKey (bytesNext k))) = p :: l ∧
        mvccGetInternal eng k ts = versionRead (some p)) ∨
      (eng.seek (newMVCCTimeKey k ts)).takeWhile
          (fun e => decide (e.1 < newMVCCKey (bytesNext k))) = [] ∧
        ∃ a, mvccGetInternal eng k ts = .ok (none, a, 0) := by
  simp only [mvccGetInternal]
  cases hseek : eng.seek (newMVCCTimeKey k ts) with
  | nil => exact .inr ⟨rfl, 0, rfl⟩
  | cons p l =>
    obtain ⟨x, e⟩ := p
    obtain ⟨hle, hget, -⟩ := eng.seek_head hseek
    by_cases hlt : x < newMVCCKey (bytesNext k)
    · have hx : x ∈ entryKeys k :=
        h.key_of_walk hk (by rw [← newMVCCTimeKey_eq]; exact hle) hlt hget
      obtain ⟨t, rfl⟩ : ∃ t, x = newMVCCTimeKey k t := by
        rcases hx with rfl | hx
        · exact absurd (newMVCCKey_lt_timeKey k ts) (not_lt.mpr hle)
        · exact hx
      refine .inl ⟨(newMVCCTimeKey k t, e), _, List.takeWhile_cons_of_pos (by simpa using hlt), ?_⟩
      have hsame := (@sameKey_iff k ts k _ (.inr ⟨t, rfl⟩)).not.mpr
        (not_not.mpr ⟨rfl, tsBytes_ne_nil t⟩)
      rw [← newMVCCTimeKey_eq] at hsame
      simp only [if_neg hsame]
      cases e <;> rfl
    · rw [newMVCCTimeKey_eq] at hle
      obtain ⟨k', hx⟩ := h x e hget ((txnPrefix_le_entry hk _).trans hle)
      refine .inr ⟨List.takeWhile_cons_of_neg (by simpa using hlt), x.length, if_pos ?_⟩
      obtain ⟨w, rfl, hw⟩ : ∃ w, x = newMVCCKey k' ++ w ∧ (w = [] ∨ ∃ t, w = tsBytes t) := by
        rcases hx with rfl | ⟨t, rfl⟩
        · exact ⟨[], (List.append_nil _).symm, .inl rfl⟩
        · exact ⟨tsBytes t, newMVCCTimeKey_eq k' t, .inr ⟨t, rfl⟩⟩
      refine (sameKey_iff hw).mpr ?_
      rintro ⟨rfl, -⟩
      exact hlt ((lt_newMVCCKey_iff hx _).mpr (lt_bytesNext k'))

/-- **A read of a key the engines agree on finds the same.** -/
lemma AgreeOn.mvccGet (h : AgreeOn S eng eng') (hk : k ∈ S) (ts : Timestamp) :
    (∃ a b, mvccGet eng k ts = .ok a ∧ mvccGet eng' k ts = .ok b ∧ SameRead a b) ∨
      ∃ e, (∀ w, e ≠ .writeIntent w) ∧ mvccGet eng k ts = .error e ∧
        mvccGet eng' k ts = .error e := by
  rw [Ancestor.mvccGet, Ancestor.mvccGet]
  by_cases hne : k.length = 0
  · rw [if_pos hne, if_pos hne]
    exact .inr ⟨_, by simp, rfl, rfl⟩
  rw [if_neg hne, if_neg hne]
  have hwalk := h.walk hk (tsBytes ts)
  rw [← newMVCCTimeKey_eq] at hwalk
  rcases mvccGetInternal_walk h.encoded (h.data k hk) ts with ⟨p, l, hp, hread⟩ |
      ⟨hnil, a, hread⟩ <;>
    rcases mvccGetInternal_walk h.encoded' (h.data k hk) ts with ⟨p', l', hp', hread'⟩ |
      ⟨hnil', a', hread'⟩
  · have hpp : p = p' := by
      rw [hp, hp'] at hwalk
      exact (List.cons.inj hwalk).1
    subst hpp
    rw [hread, hread']
    obtain ⟨x, e⟩ := p
    cases e
    case value v => exact .inl ⟨_, _, rfl, rfl, rfl, fun _ => rfl⟩
    all_goals exact .inr ⟨.unmarshalData, by simp, rfl, rfl⟩
  · rw [hp, hnil'] at hwalk
    cases hwalk
  · rw [hp', hnil] at hwalk
    cases hwalk
  · exact .inl ⟨_, _, hread, hread', rfl, fun hne => absurd rfl hne⟩

lemma AgreeOn.mvccGetMeta (h : AgreeOn S eng eng') (hk : k ∈ S) :
    mvccGetMeta eng k = mvccGetMeta eng' k := by
  simp only [Ancestor.mvccGetMeta, h.same k hk _ (metaKey_mem k)]

lemma AgreeOn.mvccGetTxn (h : AgreeOn S eng eng') (hk : k ∈ S) :
    mvccGetTxn eng k = mvccGetTxn eng' k := by
  simp only [Ancestor.mvccGetTxn, h.same k hk _ (metaKey_mem k)]

/-- A record is found under its own ID. -/
lemma AgreeOn.id_of_mvccGetTxn (h : AgreeOn S eng eng') (hk : k ∈ S) {r : Transaction}
    (hr : Ancestor.mvccGetTxn eng k = .ok (some r)) : r.id = k := by
  unfold Ancestor.mvccGetTxn at hr
  split_ifs at hr
  split at hr <;> cases hr
  exact h.records k hk r (by assumption)

end Reads

/-! ### Commands on the engine -/

/-- Engines that agree on the keys in `S`, and, where `c` holds, the same statistics. -/
def Same (S : Set Key) (c : Prop) (s t : St) : Prop :=
  AgreeOn S s.eng t.eng ∧ (c → s.stats = t.stats)

/-- An intent that is reported is one of a key in `S`. -/
def IntentIn (S : Set Key) (e : Err) : Prop := ∀ w, e = .writeIntent w → w.intent.key ∈ S

section Commands

variable {α β : Type} {S : Set Key} {c : Prop} {k : Key}

lemma lockstep_putEng {x : MVCCKey} (hx : x ∈ entryKeys k) (e : Entry)
    (hrec : ∀ r, e = .txn r → x = newMVCCKey r.id) :
    Lockstep (Same S c) (IntentIn S) (putEng x e) :=
  lockstep_modify fun _ _ h => ⟨h.1.put hx e hrec, h.2⟩

lemma lockstep_clearEng [Backend] (x : MVCCKey) :
    Lockstep (Same S c) (IntentIn S) (clearEng x) :=
  lockstep_modify fun _ _ h => ⟨h.1.erase x, h.2⟩

lemma lockstep_updateRangeStats (a b a' b' : ℕ) :
    Lockstep (Same S c) (IntentIn S) (updateRangeStats a b a' b') :=
  lockstep_modify fun s t h => ⟨h.1, fun hc => by rw [h.2 hc]⟩

/-- A read whose results are alike. -/
lemma paired_read {g : Engine → Except Err α} {Q : α → α → Prop}
    (h : ∀ eng eng', AgreeOn S eng eng' →
      (∃ a b, g eng = .ok a ∧ g eng' = .ok b ∧ Q a b) ∨
        ∃ e, (∀ w, e ≠ .writeIntent w) ∧ g eng = .error e ∧ g eng' = .error e) :
    Paired (Same S c) (M.read g) (M.read g) Q (IntentIn S) := by
  intro s t hst
  rcases h s.eng t.eng hst.1 with ⟨a, b, ha, hb, hQ⟩ | ⟨e, hne, ha, hb⟩
  · exact .inl ⟨a, s, b, t, read_ok ha, read_ok hb, hQ, hst⟩
  · exact .inr ⟨e, s, t, read_error ha, read_error hb, fun w hw => absurd hw (hne w), hst⟩

lemma lockstep_read {g : Engine → Except Err α}
    (h : ∀ eng eng', AgreeOn S eng eng' → g eng = g eng')
    (hE : ∀ eng w, g eng ≠ .error (.writeIntent w)) :
    Lockstep (Same S c) (IntentIn S) (M.read g) := by
  refine paired_read fun eng eng' hag => ?_
  have heq := h eng eng' hag
  cases hg : g eng with
  | ok a => exact .inl ⟨a, a, rfl, heq ▸ hg, rfl⟩
  | error e => exact .inr ⟨e, fun w hw => hE eng w (hw ▸ hg), rfl, heq ▸ hg⟩

lemma lockstep_mvccGetMeta (hk : k ∈ S) :
    Lockstep (Same S c) (IntentIn S) (M.read (mvccGetMeta · k)) := by
  refine lockstep_read (fun _ _ h => h.mvccGetMeta hk) fun eng w => ?_
  unfold mvccGetMeta
  split_ifs
  · simp
  · simp only
    split <;> simp

lemma paired_mvccGetTxn (hk : k ∈ S) :
    Paired (Same S c) (M.read (mvccGetTxn · k)) (M.read (mvccGetTxn · k))
      (fun a b => a = b ∧ ∀ r, a = some r → r.id = k) (IntentIn S) := by
  refine paired_read fun eng eng' h => ?_
  rw [← h.mvccGetTxn hk]
  cases hg : mvccGetTxn eng k with
  | ok a => exact .inl ⟨a, a, rfl, rfl, rfl, fun r hr => h.id_of_mvccGetTxn hk (hr ▸ hg)⟩
  | error e =>
    refine .inr ⟨e, fun w hw => ?_, rfl, rfl⟩
    unfold mvccGetTxn at hg
    split_ifs at hg
    · cases hg
      cases hw
    · split at hg <;> cases hg
      cases hw

lemma lockstep_mvccPutMeta (k : Key) (txn : Transaction) (deleted : Bool) (a b : ℕ) :
    Lockstep (Same S c) (IntentIn S) (mvccPutMeta k txn deleted a b) := by
  have hrest : Lockstep (Same S c) (IntentIn S) (do
      putEng (newMVCCKey k) (.metaData ⟨txn.id, txn.timestamp, deleted⟩)
      updateRangeStats a b (newMVCCKey k).length
        (⟨txn.id, txn.timestamp, deleted⟩ : MVCCMetadata).size
      return ((newMVCCKey k).length, (⟨txn.id, txn.timestamp, deleted⟩ : MVCCMetadata).size)) :=
    (lockstep_putEng (metaKey_mem k) _ (by simp)).bind fun _ =>
      (lockstep_updateRangeStats _ _ _ _).bind fun _ => lockstep_pure _
  unfold mvccPutMeta
  split_ifs
  · exact (lockstep_throw fun w hw => by cases hw).bind fun _ => hrest
  · exact hrest

lemma lockstep_mvccPut (k : Key) (txn : Transaction) (v : Value) :
    Lockstep (Same S c) (IntentIn S) (mvccPut k txn v) :=
  (lockstep_putEng (versionKeys_subset k (timeKey_mem k _)) _ (by simp)).bind fun _ =>
    lockstep_updateRangeStats _ _ _ _

lemma lockstep_mvccClear [Backend] (k : Key) (t : Timestamp) :
    Lockstep (Same S c) (IntentIn S) (mvccClear k t) := lockstep_clearEng _

/-- A record goes out under the ID it came with. -/
lemma nextTxn_id {stored : Option Transaction} {req r : Transaction} {changeType : TxnChangeType}
    (hstored : ∀ r, stored = some r → r.id = req.id)
    (h : nextTxn stored req changeType = .ok (some r)) : r.id = req.id := by
  obtain ⟨-, rfl⟩ := nextTxn_some h
  cases stored with
  | none => rfl
  | some r => exact hstored r rfl

lemma lockstep_mvccPutTxn (req : Transaction) (changeType : TxnChangeType) (stats : Bool)
    (hk : req.id ∈ S) : Lockstep (Same S c) (IntentIn S) (mvccPutTxn req changeType stats) := by
  have hstored : Paired (Same S c)
      (M.read fun eng => if changeType ≠ .beginTxn then mvccGetTxn eng req.id else .ok none)
      (M.read fun eng => if changeType ≠ .beginTxn then mvccGetTxn eng req.id else .ok none)
      (fun a b => a = b ∧ ∀ r, a = some r → r.id = req.id) (IntentIn S) := by
    by_cases hb : changeType ≠ .beginTxn
    · simp only [if_pos hb]
      exact paired_mvccGetTxn hk
    · simp only [if_neg hb]
      exact paired_read fun _ _ _ => .inl ⟨none, none, rfl, rfl, rfl, by simp⟩
  refine hstored.bind ?_
  rintro stored _ ⟨rfl, hid⟩
  have hnext : Paired (Same S c) (M.read fun _ => nextTxn stored req changeType)
      (M.read fun _ => nextTxn stored req changeType)
      (fun a b => a = b ∧ ∀ r, a = some r → r.id = req.id) (IntentIn S) := by
    refine paired_read fun _ _ _ => ?_
    cases hn : nextTxn stored req changeType with
    | ok a => exact .inl ⟨a, a, rfl, rfl, rfl, fun r hr => nextTxn_id hid (hr ▸ hn)⟩
    | error e =>
      refine .inr ⟨e, fun w hw => ?_, rfl, rfl⟩
      subst hw
      unfold nextTxn at hn
      simp only at hn
      split_ifs at hn <;> cases hn
  refine hnext.bind ?_
  rintro toPut _ ⟨rfl, hput⟩
  cases toPut with
  | none => exact lockstep_pure _
  | some r =>
    refine (lockstep_putEng (metaKey_mem req.id) _ fun r' hr' => ?_).bind fun _ => ?_
    · cases hr'
      rw [hput r rfl]
    · cases stats
      · exact lockstep_pure _
      · exact lockstep_updateRangeStats _ _ _ _

lemma lockstep_heartbeatTransaction (txn : Transaction) (hk : txn.id ∈ S) :
    Lockstep (Same S c) (IntentIn S) (heartbeatTransaction txn) := by
  intro s t hst
  rcases lockstep_mvccPutTxn txn .heartbeat false hk s t hst with
    ⟨_, s', _, t', hs, ht, -, hst'⟩ | ⟨e, s', t', hs, ht, -, hst'⟩
  · exact .inl ⟨none, s', none, t', by rw [heartbeatTransaction, hs],
      by rw [heartbeatTransaction, ht], rfl, hst'⟩
  · left
    simp only [heartbeatTransaction, hs, ht]
    cases e
    case transactionStatus => exact ⟨_, s', _, t', rfl, rfl, rfl, hst'⟩
    all_goals exact ⟨none, s', none, t', rfl, rfl, rfl, hst'⟩

/-- A push changes the record it has found, which stands under the key it was asked for. -/
lemma lockstep_processPushTransaction (latestTimestamp : Timestamp) (pushType : PushTxnType)
    (pusherTxn : Transaction) (hk : k ∈ S) :
    Lockstep (Same S c) (IntentIn S)
      (processPushTransaction k latestTimestamp pushType pusherTxn) := by
  refine (paired_mvccGetTxn hk).bind ?_
  rintro stored _ ⟨rfl, hid⟩
  cases stored with
  | none => exact lockstep_throw fun w hw => by cases hw
  | some pusheeTxn =>
    have hin : pusheeTxn.id ∈ S := hid pusheeTxn rfl ▸ hk
    have hput : ∀ (txn : Transaction) changeType, txn.id = pusheeTxn.id →
        Lockstep (Same S c) (IntentIn S) (do
          mvccPutTxn txn changeType false
          return txn) := fun txn changeType htxn =>
      (lockstep_mvccPutTxn txn changeType false (htxn ▸ hin)).bind fun _ => lockstep_pure _
    simp only
    split_ifs
    · exact lockstep_pure _
    · exact lockstep_pure _
    · exact hput _ _ rfl
    · exact lockstep_throw fun w hw => by cases hw
    · cases pushType with
      | pushTimestamp =>
        cases pusherTxn.timestamp.next with
        | none => exact lockstep_throw fun w hw => by cases hw
        | some timestamp => exact hput _ _ rfl
      | pushAbort => exact hput _ _ rfl
      | pushTouch => exact lockstep_throw fun w hw => by cases hw

section Clears

variable [Backend]

lemma lockstep_putCheck (hk : k ∈ S) (txn : Transaction) (ts : Timestamp)
    (metaData : Option MVCCMetadata) :
    Lockstep (Same S c) (IntentIn S) (putCheck k txn ts metaData) := by
  have hintent : ∀ id, IntentIn S (.writeIntent (newWriteIntentError txn .pushAbort id k)) := by
    rintro id w hw
    cases hw
    exact hk
  unfold putCheck
  cases metaData with
  | none => exact lockstep_pure _
  | some metaData =>
    simp only
    split_ifs
    · exact lockstep_throw fun w hw => by cases hw
    · exact lockstep_pure _
    · exact (lockstep_throw (hintent _)).bind fun _ => lockstep_pure _
    · exact (lockstep_throw (hintent _)).bind fun _ => lockstep_mvccClear k _
    · exact lockstep_pure _
    · exact lockstep_mvccClear k _

lemma lockstep_put (req : PutRequest) (hk : req.key ∈ S) :
    Lockstep (Same S c) (IntentIn S) (put req) := by
  refine (lockstep_mvccGetMeta hk).bind fun x => ?_
  refine (lockstep_putCheck hk _ _ _).bind fun _ => ?_
  split_ifs
  · exact lockstep_pure _
  · exact (lockstep_mvccPutMeta _ _ _ _ _).bind fun _ => lockstep_mvccPut _ _ _

lemma lockstep_mvccResolveIntentUpdate (hk : k ∈ S) (txn : Transaction) (m : MVCCMetadata) :
    Lockstep (Same S c) (IntentIn S) (mvccResolveIntentUpdate k txn m) := by
  have hread : Paired (Same S c) (M.read (mvccGet · k m.timestamp))
      (M.read (mvccGet · k m.timestamp)) SameRead (IntentIn S) :=
    paired_read fun _ _ h => h.mvccGet hk m.timestamp
  refine hread.bind ?_
  rintro ⟨val, a, b⟩ ⟨val', a', b'⟩ ⟨hval, hsame⟩
  cases val with
  | none =>
    obtain rfl : none = val' := hval
    exact lockstep_throw fun w hw => by cases hw
  | some v =>
    -- with a value the sizes are the same as well
    cases hsame (by simp)
    exact (lockstep_mvccPut _ _ _).bind fun _ => (lockstep_mvccClear _ _).bind fun _ =>
      lockstep_updateRangeStats _ _ _ _

lemma lockstep_mvccResolveIntentPending (hk : k ∈ S) (txn : Transaction) (m : MVCCMetadata)
    (a b : ℕ) : Lockstep (Same S c) (IntentIn S) (mvccResolveIntentPending k txn m a b) := by
  unfold mvccResolveIntentPending
  split_ifs
  · exact (lockstep_mvccPutMeta _ _ _ _ _).bind fun _ => lockstep_mvccResolveIntentUpdate hk _ _
  · exact lockstep_pure _

lemma lockstep_mvccResolveIntentCommit (hk : k ∈ S) (txn : Transaction) (m : MVCCMetadata)
    (a b : ℕ) : Lockstep (Same S c) (IntentIn S) (mvccResolveIntentCommit k txn m a b) := by
  refine (lockstep_mvccPutMeta _ _ _ _ _).bind fun _ => ?_
  split_ifs
  · exact lockstep_mvccResolveIntentUpdate hk _ _
  · exact lockstep_pure _

/-- The scan of an abort stays within the versions of the key. -/
lemma lockstep_scan_older (hcopies : Backend.Copies) (hk : k ∈ S) (t : Timestamp) :
    Lockstep (Same S c) (IntentIn S) (M.read fun eng =>
      .ok (scan eng (bytesNext (newMVCCTimeKey k t)) (newMVCCKey (bytesNext k)) 1)) := by
  refine lockstep_read (fun eng eng' h => ?_) (by simp)
  have hwalk := h.walk hk (tsBytes t ++ [0])
  rw [← List.append_assoc, ← newMVCCTimeKey_eq] at hwalk
  rw [scan_copies hcopies, scan_copies hcopies, iterate, iterate, bytesNext, hwalk]

lemma lockstep_mvccResolveIntentAbort (hcopies : Backend.Copies) (hk : k ∈ S) (txn : Transaction)
    (m : MVCCMetadata) (a b : ℕ) :
    Lockstep (Same S c) (IntentIn S) (mvccResolveIntentAbort k txn m a b) := by
  refine (lockstep_mvccClear _ _).bind fun _ => (lockstep_updateRangeStats _ _ _ _).bind fun _ =>
    (lockstep_scan_older hcopies hk _).bind fun kvs => ?_
  match kvs with
  | [] => exact (lockstep_clearEng _).bind fun _ => lockstep_updateRangeStats _ _ _ _
  | (x, e) :: _ =>
    refine Lockstep.bind (lockstep_read (fun _ _ _ => rfl) fun _ w => ?_) fun ⟨_, ts, _⟩ => ?_
    · cases decodeMVCCKey x <;> simp [Except.mapError]
    match e with
    | .value ⟨_, some v⟩ => exact (lockstep_mvccPutMeta _ _ _ _ _).bind fun _ => lockstep_pure _
    | .value ⟨_, none⟩ | .metaData _ | .txn _ | .raftEntry _ | .plain _ | .raw _ =>
      exact lockstep_throw fun w hw => by cases hw

lemma lockstep_mvccResolveIntent (i : Intent) (hk : i.key ∈ S)
    (hcopies : Backend.Copies ∨ i.txn.status ≠ .aborted) :
    Lockstep (Same S c) (IntentIn S) (mvccResolveIntent i) := by
  refine (lockstep_mvccGetMeta hk).bind fun ⟨localMeta, a, b⟩ => ?_
  cases localMeta with
  | none => exact lockstep_pure _
  | some m =>
    simp only
    split_ifs
    · exact lockstep_pure _
    · cases hs : i.txn.status with
      | pending => exact lockstep_mvccResolveIntentPending hk _ _ _ _
      | aborted =>
        exact lockstep_mvccResolveIntentAbort (hcopies.resolve_right (absurd hs)) hk _ _ _ _
      | committed => exact lockstep_mvccResolveIntentCommit hk _ _ _ _

/-- The loop goes on after an error, on both engines or on none. -/
lemma lockstep_mvccResolveWriteIntent (intents : List Intent) (hk : ∀ i ∈ intents, i.key ∈ S)
    (hcopies : ∀ i ∈ intents, Backend.Copies ∨ i.txn.status ≠ .aborted) :
    Lockstep (Same S c) (IntentIn S) (mvccResolveWriteIntent intents) := by
  induction intents with
  | nil => exact lockstep_pure _
  | cons i intents ih =>
    have hmore := ih (fun j hj => hk j (.tail _ hj)) fun j hj => hcopies j (.tail _ hj)
    have hone := lockstep_mvccResolveIntent (c := c) i (hk i List.mem_cons_self)
      (hcopies i List.mem_cons_self)
    intro s t hst
    rcases hone s t hst with
      ⟨_, s', _, t', hs, ht, -, hst'⟩ | ⟨e, s', t', hs, ht, he, hst'⟩
    · cases ‹PUnit›
      rw [Lockstep, Paired] at hmore
      have hrest := hmore s' t' hst'
      rwa [← mvccResolveWriteIntent_cons intents hs, ← mvccResolveWriteIntent_cons intents ht]
        at hrest
    · cases e
      case panic msg =>
        refine .inr ⟨_, s', t', ?_, ?_, he, hst'⟩ <;> simp only [mvccResolveWriteIntent, hs, ht]
      all_goals
        have hs' : mvccResolveWriteIntent (i :: intents) s = mvccResolveWriteIntent intents s' := by
          simp only [mvccResolveWriteIntent, hs]
        have ht' : mvccResolveWriteIntent (i :: intents) t = mvccResolveWriteIntent intents t' := by
          simp only [mvccResolveWriteIntent, ht]
        have hrest := hmore s' t' hst'
        rwa [← hs', ← ht'] at hrest

end Clears

end Commands

/-! ### Stores -/

/-- The stores agree on the keys in `S`, on the replicas of the ranges in `I` and on the statistics
of those in `J`. -/
structure AgreeStores (S : Set Key) (I J : Set RangeID) (s t : Store) : Prop where
  agree : AgreeOn S s.eng t.eng
  replicas : ∀ id ∈ I, s.replicas id = t.replicas id
  stats : ∀ id ∈ J, s.rangeStats id = t.rangeStats id

/-- A write request that names keys in `S` and ranges in `I` only. The other two kinds are reads,
which are executed by the replica that was asked alone. -/
def Request.Within (S : Set Key) (I : Set RangeID) : Request → Prop
  | .put req => req.key ∈ S
  | .beginTransaction req | .heartbeatTransaction req => req.txn.id ∈ S
  | .endTransaction req => req.txn.id ∈ S
  | .resolveIntent req => ∀ i ∈ req.intents, i.key ∈ S
  | .pushTransaction req => req.pusheeKey ∈ S
  | .split req => req.newRangeID ∈ I
  | .updateRange _ => True
  | .get _ | .getSplitKey _ => False

/-- No intent is resolved for an aborted transaction. -/
def Request.NoAbort : Request → Prop
  | .resolveIntent req => ∀ i ∈ req.intents, i.txn.status ≠ .aborted
  | _ => True

/-- Nor one that is in the way of a write. -/
structure RaftCommand.NoAbort (cmd : RaftCommand) : Prop where
  req : ∀ request ∈ cmd.req, request.NoAbort
  pusheeTxn : ∀ txn ∈ cmd.pusheeTxn, txn.status ≠ .aborted

section Stores

variable {α : Type} {S : Set Key} {I J : Set RangeID} {r : Replica} {id : RangeID}

/-- A command on the engine keeps to the statistics of its own range. -/
lemma lockstep_onEngine {m : M α} (h : ∀ c, Lockstep (Same S c) (IntentIn S) m) :
    Lockstep (AgreeStores S I J) (IntentIn S) (r.onEngine m) := by
  intro s t hst
  have hkeep : ∀ u v : St, Same S (r.rangeID ∈ J) u v →
      AgreeStores S I J (r.keep s u) (r.keep t v) := by
    rintro u v ⟨hag, hstats⟩
    refine ⟨hag, hst.replicas, fun id hid => ?_⟩
    by_cases hrid : id = r.rangeID
    · subst hrid
      simpa [Replica.keep] using hstats hid
    · simpa [Replica.keep, hrid] using hst.stats id hid
  rcases h (r.rangeID ∈ J) ⟨s.eng, s.rangeStats r.rangeID⟩ ⟨t.eng, t.rangeStats r.rangeID⟩
      ⟨hst.agree, hst.stats _⟩ with
    ⟨a, u, b, v, hu, hv, hab, huv⟩ | ⟨e, u, v, hu, hv, he, huv⟩
  · exact .inl ⟨a, _, b, _, onEngine_ok hu, onEngine_ok hv, hab, hkeep u v huv⟩
  · exact .inr ⟨e, _, _, by rw [Replica.onEngine, hu], by rw [Replica.onEngine, hv], he,
      hkeep u v huv⟩

lemma lockstep_addReplica (r : Replica) :
    Lockstep (AgreeStores S I J) (IntentIn S) (addReplica r) := by
  refine lockstep_modify fun s t hst => ⟨hst.agree, fun id hid => ?_, hst.stats⟩
  by_cases hrid : id = r.rangeID
  · simp [Store.add, hrid]
  · simpa [Store.add, hrid] using hst.replicas id hid

lemma lockstep_createReplica {rd : RangeDescriptor} (hid : rd.rangeID ∈ I) :
    Lockstep (AgreeStores S I J) (IntentIn S) (createReplica rd) := by
  intro s t hst
  rw [createReplica, run_bind_get, run_bind_get, hst.replicas _ hid]
  have hadd := lockstep_addReplica (S := S) (I := I) (J := J) ⟨rd.rangeID, rd⟩
  split_ifs
  · exact Lockstep.bind (lockstep_throw fun w hw => by cases hw) (fun _ => hadd) s t hst
  · exact hadd s t hst

lemma lockstep_split (req : SplitRequest) (hnew : req.newRangeID ∈ I) :
    Lockstep (AgreeStores S I J) (IntentIn S) (r.split req) := by
  have hrest : Lockstep (AgreeStores S I J) (IntentIn S) (do
      createReplica (makeRangeDesc req.newRangeID r.rangeDesc.startKey req.splitKey
        r.rangeDesc.replicas)
      modify (fillRangeStats · r.rangeID req.newRangeID req.newRangeBytes req.newRangeCount)
      return [makeRangeDesc req.newRangeID r.rangeDesc.startKey req.splitKey r.rangeDesc.replicas,
        makeRangeDesc r.rangeID req.splitKey r.rangeDesc.endKey r.rangeDesc.replicas]) := by
    refine (lockstep_createReplica hnew).bind fun _ => Lockstep.bind
      (lockstep_modify fun s t hst => ⟨hst.agree, hst.replicas, fun id hid => ?_⟩) fun _ =>
        lockstep_pure _
    have hold := hst.stats id hid
    simp only [fillRangeStats, Function.update_apply]
    split_ifs <;> simp_all
  unfold Replica.split
  simp only
  split_ifs
  · exact Lockstep.bind (lockstep_throw fun w hw => by cases hw) fun _ => hrest
  · exact hrest

lemma lockstep_updateRange (req : UpdateRangeRequest) :
    Lockstep (AgreeStores S I J) (IntentIn S) (r.updateRange req) := by
  have hadd := lockstep_addReplica (S := S) (I := I) (J := J)
    { r with rangeDesc := req.rangeDescriptor }
  unfold Replica.updateRange
  split_ifs
  · exact Lockstep.bind (lockstep_throw fun w hw => by cases hw) fun _ => hadd
  · exact hadd

/-- The replica of a range in `I` is the same on both stores, if there is one. -/
lemma paired_getReplica (hid : id ∈ I) :
    Paired (AgreeStores S I J) (getReplica id) (getReplica id)
      (fun r r' => r = r' ∧ r.rangeID = id) (IntentIn S) := by
  intro s t hst
  rw [getReplica_run, getReplica_run, ← hst.replicas id hid]
  cases hr : s.replicas id with
  | none => exact .inr ⟨_, s, t, rfl, rfl, fun w hw => (by cases hw), hst⟩
  | some r => exact .inl ⟨r, s, r, t, rfl, rfl, ⟨rfl, s.keyed id r hr⟩, hst⟩

section Execute

variable [Backend]

/-- **A write request goes the same way on both stores.** -/
theorem lockstep_executeCmd {request : Request} (hreq : request.Within S I)
    (hcopies : Backend.Copies ∨ request.NoAbort) :
    Lockstep (AgreeStores S I J) (IntentIn S) (r.executeCmd request) := by
  have hdispatch : Lockstep (AgreeStores S I J) (IntentIn S) (r.dispatch request) := by
    cases request with
    | get req => exact absurd hreq id
    | getSplitKey req => exact absurd hreq id
    | put req =>
      exact (lockstep_onEngine fun _ => lockstep_put req hreq).bind fun _ => lockstep_pure _
    | beginTransaction req =>
      exact (lockstep_onEngine fun _ => lockstep_mvccPutTxn _ _ _ hreq).bind fun _ =>
        lockstep_pure _
    | endTransaction req =>
      have hend : ∀ c, Lockstep (Same S c) (IntentIn S) (mvccPutTxn { req.txn with
          status := if req.commit then .committed else .aborted } .endTxn false) := fun _ =>
        lockstep_mvccPutTxn _ _ _ hreq
      exact (lockstep_onEngine hend).bind fun _ => lockstep_pure _
    | heartbeatTransaction req =>
      exact (lockstep_onEngine fun _ => lockstep_heartbeatTransaction _ hreq).bind fun _ =>
        lockstep_pure _
    | resolveIntent req =>
      have hresolve : ∀ c, Lockstep (Same S c) (IntentIn S) (mvccResolveWriteIntent req.intents) :=
        fun _ => lockstep_mvccResolveWriteIntent _ hreq fun i hi => hcopies.imp id fun h => h i hi
      exact (lockstep_onEngine hresolve).bind fun _ => lockstep_pure _
    | pushTransaction req =>
      exact (lockstep_onEngine fun _ => lockstep_processPushTransaction _ _ _ hreq).bind fun _ =>
        lockstep_pure _
    | split req => exact (lockstep_split req hreq).bind fun _ => lockstep_pure _
    | updateRange req => exact (lockstep_updateRange req).bind fun _ => lockstep_pure _
  intro s t hst
  rw [executeCmd_run, executeCmd_run]
  split_ifs
  · exact hdispatch s t hst
  · exact .inr ⟨_, s, t, rfl, rfl, fun w hw => (by cases hw), hst⟩

lemma lockstep_preprocessWriteIntentError {pusheeTxn : List Transaction} {err : Err}
    (herr : IntentIn S err)
    (hcopies : Backend.Copies ∨ ∀ txn ∈ pusheeTxn, txn.status ≠ .aborted) :
    Lockstep (AgreeStores S I J) (IntentIn S) (r.preprocessWriteIntentError pusheeTxn err) := by
  unfold Replica.preprocessWriteIntentError
  cases err
  case writeIntent wiErr =>
    have hkey : wiErr.intent.key ∈ S := herr wiErr rfl
    simp only
    cases hfind : pusheeTxn.find? fun t => wiErr.intent.txn.id = t.id with
    | none => exact lockstep_pure _
    | some txn =>
      have hstatus := hcopies.imp id fun h => h txn (List.mem_of_find?_eq_some hfind)
      refine Lockstep.bind (lockstep_onEngine fun _ =>
        lockstep_mvccResolveWriteIntent _ ?_ ?_) fun _ => lockstep_pure _
      · simpa using hkey
      · simpa using hstatus
  all_goals exact lockstep_pure _

/-- **So does a request that is tried again** after the intent in its way has been resolved. -/
lemma lockstep_applyRequest {pusheeTxn : List Transaction} {request : Request}
    (hreq : request.Within S I) (hcopies : Backend.Copies ∨ request.NoAbort)
    (hpushee : Backend.Copies ∨ ∀ txn ∈ pusheeTxn, txn.status ≠ .aborted) :
    Lockstep (AgreeStores S I J) (IntentIn S) (r.applyRequest pusheeTxn request) := by
  have hexec := lockstep_executeCmd (r := r) (J := J) hreq hcopies
  refine hexec.outcome.bind ?_
  rintro res _ ⟨rfl, herr⟩
  cases res with
  | ok resp => exact lockstep_pure _
  | error err =>
    refine (lockstep_preprocessWriteIntentError (herr err rfl) hpushee).bind
      fun resolved => ?_
    cases resolved
    · exact lockstep_throw (herr err rfl)
    · exact hexec

/-- **A batch goes the same way on both stores.** -/
theorem lockstep_execute {pusheeTxn : List Transaction} (hid : id ∈ I) {l : List Request}
    (hl : ∀ request ∈ l, request.Within S I)
    (hcopies : ∀ request ∈ l, Backend.Copies ∨ request.NoAbort)
    (hpushee : Backend.Copies ∨ ∀ txn ∈ pusheeTxn, txn.status ≠ .aborted) :
    Lockstep (AgreeStores S I J) (IntentIn S) (execute id pusheeTxn l) := by
  induction l with
  | nil => exact lockstep_pure _
  | cons request l ih =>
    refine (paired_getReplica hid).bind ?_
    rintro r _ ⟨rfl, hr⟩
    have hone := lockstep_applyRequest (r := r) (J := J) (hl request List.mem_cons_self)
      (hcopies request List.mem_cons_self) hpushee
    exact hone.bind fun _ => (ih (fun q hq => hl q (.tail _ hq))
      fun q hq => hcopies q (.tail _ hq)).bind fun _ => lockstep_pure _

end Execute

end Stores

/-! ### Logs -/

/-- What a replica answers to the commands of a log, and what it has become then. -/
def applyLog [Backend] (r : RaftReplica) (s : Store) :
    List RaftCommand → List (Except Err (List Response)) × RaftReplica × Store
  | [] => ([], r, s)
  | cmd :: l =>
    let answer := returned (execute r.rangeID cmd.pusheeTxn cmd.req) s
    let (r, s) := processRaftCommand r s cmd
    let (answers, r, s) := applyLog r s l
    (answer :: answers, r, s)

section Logs

variable [Backend] {S : Set Key} {I J : Set RangeID} {s t : Store} {r r' : RaftReplica}

/-- **A command goes the same way on both stores.** -/
lemma lockstep_command {cmd : RaftCommand} {id : RangeID} (hid : id ∈ I)
    (hcmd : ∀ request ∈ cmd.req, request.Within S I) (hcopies : Backend.Copies ∨ cmd.NoAbort) :
    Lockstep (AgreeStores S I J) (IntentIn S) (execute id cmd.pusheeTxn cmd.req) :=
  lockstep_execute hid hcmd (fun request hreq => hcopies.imp_right fun h => h.req request hreq)
    (hcopies.imp_right fun h => h.pusheeTxn)

/-- The write of the applied index is the same on both stores. -/
lemma processRaftCommand_agree (h : AgreeStores S I J s t) (hr : r.rangeID ∈ I)
    (hr' : r'.rangeID = r.rangeID) {cmd : RaftCommand}
    (hcmd : ∀ request ∈ cmd.req, request.Within S I) (hcopies : Backend.Copies ∨ cmd.NoAbort) :
    AgreeStores S I J (processRaftCommand r s cmd).2 (processRaftCommand r' t cmd).2 := by
  have hexec := (lockstep_command (J := J) hr hcmd hcopies).stateAfter h
  unfold processRaftCommand
  rw [hr']
  refine ⟨?_, hexec.replicas, hexec.stats⟩
  simp only [RaftReplica.setAppliedIndex, putIndex, hr', raftAppliedIndexKey]
  exact hexec.agree.put (metaKey_mem _) _ (by simp)

/-- **The replicas of a range stay copies of one another.** Two stores that agree on the keys that
the commands of a log name, and on the ranges, give the same answers to the commands and agree
again after them, whatever else they hold. Statistics that were the same stay so. Where the slices
of iterators are written over, no intent is resolved for an aborted transaction. -/
theorem replicas_agree (h : AgreeStores S I J s t) (hr : r.rangeID ∈ I)
    (hr' : r'.rangeID = r.rangeID) {log : List RaftCommand}
    (hlog : ∀ cmd ∈ log, ∀ request ∈ cmd.req, request.Within S I)
    (hcopies : Backend.Copies ∨ ∀ cmd ∈ log, cmd.NoAbort) :
    (applyLog r s log).1 = (applyLog r' t log).1 ∧
      AgreeStores S I J (applyLog r s log).2.2 (applyLog r' t log).2.2 := by
  induction log generalizing r r' s t with
  | nil => exact ⟨rfl, h⟩
  | cons cmd log ih =>
    have hcmd := hlog cmd List.mem_cons_self
    have hone := hcopies.imp_right fun h => h cmd List.mem_cons_self
    have hanswer := (lockstep_command hr hcmd hone).returned_eq h
    have hstep := processRaftCommand_agree h hr hr' hcmd hone
    have hid : (processRaftCommand r s cmd).1.rangeID ∈ I := hr
    have hid' : (processRaftCommand r' t cmd).1.rangeID = (processRaftCommand r s cmd).1.rangeID :=
      hr'
    obtain ⟨hanswers, hagree⟩ := ih hstep hid hid' (fun c hc => hlog c (.tail _ hc))
      (hcopies.imp_right fun h c hc => h c (.tail _ hc))
    refine ⟨?_, hagree⟩
    have hhead : returned (execute r.rangeID cmd.pusheeTxn cmd.req) s =
        returned (execute r'.rangeID cmd.pusheeTxn cmd.req) t := by rw [hr', hanswer]
    exact congrArg₂ List.cons hhead hanswers

end Logs

namespace Replication

attribute [local instance] Backend.ordered

/-- A range of user keys. -/
def desc : RangeDescriptor := ⟨7, [0x02], [0x03], [⟨1, 1⟩, ⟨2, 1⟩]⟩

/-- A node with that range, and whatever is in its engine. -/
def node (eng : Engine) : Store := { Store.empty with eng }.add ⟨7, desc⟩

/-- The keys of the range. -/
def keys : Set Key := {k | desc.Covers k}

/-- Something of another range: a record, and an intent on a key after the range. -/
def others : Engine :=
  ((OrdMap.empty.put (newMVCCKey [0x01, 0x61]) (.txn { id := [0x01, 0x61] })).put
    (newMVCCKey [0x03, 0x61]) (.metaData ⟨[0x01, 0x61], ⟨5, 0⟩, false⟩)).put
    (newMVCCTimeKey [0x03, 0x61] ⟨5, 0⟩) (.value { value := some { bytes := [1] } })

lemma agree_others : AgreeStores keys {7} {7} (node .empty) (node others) where
  agree := by
    have hnone : ∀ k ∈ keys, ∀ x ∈ entryKeys k, others.get x = none := by
      intro k hk x hx
      have hne : ∀ k', ¬ desc.Covers k' → x ∉ entryKeys k' := fun k' hk' hx' =>
        hk' (entryKeys_inj hx hx' ▸ hk)
      have h1 := hne [0x01, 0x61] (by rintro ⟨h, -⟩; exact absurd h (by decide))
      have h3 := hne [0x03, 0x61] (by rintro ⟨-, h⟩; exact absurd h (by decide))
      rw [others, OrdMap.get_put, OrdMap.get_put, OrdMap.get_put, if_neg, if_neg, if_neg]
      · rfl
      · exact fun h => h1 (h ▸ metaKey_mem _)
      · exact fun h => h3 (h ▸ metaKey_mem _)
      · exact fun h => h3 (h ▸ versionKeys_subset _ (timeKey_mem _ _))
    have hempty : DataEncoded (OrdMap.empty : Engine) := fun _ _ he => by cases he
    have hdata : ∀ k ∈ keys, txnPrefix ≤ k := fun k hk =>
      (by decide : txnPrefix ≤ desc.startKey).trans hk.1
    refine ⟨hempty, ?_, hdata, fun k hk x hx => (hnone k hk x hx).symm,
      fun k hk r hr => by cases hr⟩
    exact ((hempty.put (metaKey_mem _) _).put (metaKey_mem _) _).put
      (versionKeys_subset _ (timeKey_mem _ _)) _
  replicas := fun _ _ => rfl
  stats := fun _ _ => rfl

def txn : Transaction := { id := [0x02, 0x74], timestamp := ⟨3, 0⟩ }

/-- A put, its abort and a resolution. -/
def log : List RaftCommand :=
  [{ index := 1
     req := [.put { key := [0x02, 0x61], timestamp := ⟨3, 0⟩, txn, value := { bytes := [9] } }] },
   { index := 2
     req := [.resolveIntent { key := [0x02, 0x61]
                              intents := [⟨[0x02, 0x61], { txn with status := .aborted }⟩] }] }]

/-- One of the two engines has an entry for the cursor of the abort to stop on. -/
theorem replicas_agree_others :
    node .empty ≠ node others ∧
      (applyLog { rangeID := 7, rangeDesc := desc } (node .empty) log).1 =
        (applyLog { rangeID := 7, rangeDesc := desc } (node others) log).1 ∧
      AgreeStores keys {7} {7} (applyLog { rangeID := 7, rangeDesc := desc } (node .empty) log).2.2
        (applyLog { rangeID := 7, rangeDesc := desc } (node others) log).2.2 := by
  refine ⟨fun h => ?_, replicas_agree agree_others (Set.mem_singleton 7) rfl ?_
    (.inl Backend.copies_ordered)⟩
  · have heng := congrArg (fun s : Store => s.eng.entries.length) h
    exact absurd heng (by decide)
  · have hkey : ([0x02, 0x61] : Key) ∈ keys := ⟨by decide, .inr (by decide)⟩
    simp [log, Request.Within, hkey]

end Replication

end Ancestor
