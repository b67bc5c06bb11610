import Ancestor.Isolation
import Ancestor.Residue

/-!
The history of a key on badger. The cell holds all of it, and more: the versions that a
resolution has moved stay where they were. Such a version lies between the start and the
commit of the transaction that wrote it, if that one has committed at all, and a read between
the two finds it.
-/

namespace Ancestor.Protocol

open M Versions

variable {s₀ s s' : Sys} {h : Timestamp → Option Value} {k : Key} {c c' : Cell} {a : Act}

attribute [local instance] Backend.badger

/-! ### The cell and the history -/

/-- A transaction that has written `k` has started by `t` and has not committed by then. -/
def Stale (s : Sys) (k : Key) (t : Timestamp) : Prop :=
  ∃ id x, s.clients.get id = some x ∧ (x.wrote k).isSome ∧ x.txn.timestamp ≤ t ∧
    ∀ u, x.phase = .ended true u → t < u

/-- The cell of `k` holds the history `h`, and what else it holds is stale. Under an intent of
a transaction that has committed at `t`, the version of the history at `t` is the intent's. -/
inductive CellHist (s : Sys) (h : Timestamp → Option Value) (k : Key) (c : Cell) : Prop
  | absent (hm : c.metaData = none) (hh : ∀ t, h t = none)
  | committed (m : MVCCMetadata) (v : Value) (hm : c.metaData = some m)
    (hid : m.transactionID = []) (hnow : h m.timestamp = some v)
    (hdel : m.deleted = true → v.bytes = []) (hold : ∀ t, h t ≠ none → t ≤ m.timestamp)
    (hh : ∀ t v, h t = some v → c.vers t = some v)
    (hst : ∀ t, c.vers t ≠ none → h t = c.vers t ∨ Stale s k t)
  | intent (m : MVCCMetadata) (w : Client) (v : Value) (hm : c.metaData = some m)
    (hw : s.clients.get m.transactionID = some w) (hwrote : w.wrote k = some v)
    (hv : c.vers m.timestamp = some v) (hdel : m.deleted = true → v.bytes = [])
    (hh : ∀ t v, h t = some v → w.phase ≠ .ended true t →
      c.vers t = some v ∧ t < w.txn.timestamp)
    (hst : ∀ t, c.vers t ≠ none → w.phase ≠ .ended true t → h t = c.vers t ∨ Stale s k t)

lemma Stale.carries {t : Timestamp} (h : Stale s k t) (hc : Carries s s' k) : Stale s' k t := by
  obtain ⟨id, x, hx, hwr, hle, hend⟩ := h
  obtain ⟨x', hx', hk⟩ := hc.fwd id x hx
  exact ⟨id, x', hx', hk.isSome hwr, hk.txn ▸ hle, fun u hu => hend u ((hk.ended u).mp hu)⟩

lemma Stale.commit {t ts : Timestamp} {id : Key} {cl : Client} {r : Transaction}
    (h : Stale s k t) (hc : Commits s a s' id cl ts r) (hlt : (cl.wrote k).isSome → t < ts) :
    Stale s' k t := by
  obtain ⟨i, x, hx, hwr, hle, hend⟩ := h
  by_cases hi : i = id
  · rw [hi, hc.client, Option.some.injEq] at hx
    subst hx
    refine ⟨id, { cl with phase := .ended true ts }, by rw [hc.get, if_pos rfl], hwr, hle,
      fun u hu => ?_⟩
    cases hu
    exact hlt hwr
  · exact ⟨i, x, by rw [hc.get, if_neg hi, hx], hwr, hle, hend⟩

namespace CellHist

lemma intent_of (hc : CellHist s h k c) {m : MVCCMetadata}
    (hm : c.metaData = some m) (hid : m.transactionID ≠ []) :
    ∃ w v, s.clients.get m.transactionID = some w ∧ w.wrote k = some v ∧
      c.vers m.timestamp = some v ∧ (m.deleted = true → v.bytes = []) ∧
      (∀ t v, h t = some v → w.phase ≠ .ended true t →
        c.vers t = some v ∧ t < w.txn.timestamp) ∧
      ∀ t, c.vers t ≠ none → w.phase ≠ .ended true t → h t = c.vers t ∨ Stale s k t := by
  cases hc with
  | absent hm' _ => simp [hm] at hm'
  | committed m' v hm' hid' _ _ _ _ _ =>
    rw [hm, Option.some.injEq] at hm'
    exact absurd (hm' ▸ hid') hid
  | intent m' w v hm' hw hwrote hv hdel hh hst =>
    rw [hm, Option.some.injEq] at hm'
    subst hm'
    exact ⟨w, v, hw, hwrote, hv, hdel, hh, hst⟩

/-- A step that does not touch the cell, and in which whoever holds the intent writes nothing. -/
lemma carries (hc : CellHist s h k c) (hcar : Carries s s' k)
    (hsame : ∀ id w w', s.clients.get id = some w → s'.clients.get id = some w' →
      w'.wrote k = w.wrote k) : CellHist s' h k c := by
  cases hc with
  | absent hm hh => exact .absent hm hh
  | committed m v hm hid hnow hdel hold hh hst =>
    exact .committed m v hm hid hnow hdel hold hh fun t ht => (hst t ht).imp_right (·.carries hcar)
  | intent m w v hm hw hwrote hv hdel hh hst =>
    obtain ⟨w', hw', hk⟩ := hcar.fwd _ w hw
    refine .intent m w' v hm hw' ((hsame _ w w' hw hw').trans hwrote) hv hdel
      (fun t v' ht hp => ?_) fun t ht hp => ?_
    · rw [hk.txn]
      exact hh t v' ht (mt (hk.ended t).mpr hp)
    · exact (hst t ht (mt (hk.ended t).mpr hp)).imp_right (·.carries hcar)

/-- What a put that stores its value finds: everything committed is older than its start. -/
lemma below_start (hs : Told s) (hok : CellLeft s c) (hc : CellHist s h k c) {id : Key}
    {w : Client} (hw : s.clients.get id = some w) (hrun : w.phase = .running)
    (hold : ∀ m, c.metaData = some m → m.transactionID = [] → m.timestamp ≤ w.txn.timestamp)
    (hown : ∀ m, c.metaData = some m → m.transactionID ≠ [] → m.transactionID = id) :
    (∀ t v, h t = some v → c.vers t = some v ∧ t < w.txn.timestamp) ∧
      ∀ t, c.vers t ≠ none → h t = c.vers t ∨ Stale s k t := by
  cases hc with
  | absent hm hh =>
    refine ⟨fun t v ht => by simp [hh t] at ht, fun t ht => ?_⟩
    cases hok with
    | absent _ hv => exact absurd (hv t) ht
    | committed m hm' _ _ _ => simp [hm] at hm'
    | intent m w r hm' _ _ _ _ _ _ => simp [hm] at hm'
  | committed m v hm hid hnow hdel hle hh hst =>
    refine ⟨fun t v' ht => ⟨hh t v' ht, (hle t (by simp [ht])).trans_lt ?_⟩, hst⟩
    refine lt_of_le_of_ne (hold m hm hid) fun heq => ?_
    -- nobody has started at the timestamp of a commit
    cases hok with
    | absent hm' _ => simp [hm] at hm'
    | committed m' hm' _ hq _ =>
      rw [hm, Option.some.injEq] at hm'
      exact hq.2 id w hw (hm' ▸ heq.symm)
    | intent m' w' r hm' hw' _ _ _ _ _ =>
      rw [hm, Option.some.injEq] at hm'
      rw [← hm', hid] at hw'
      exact ne_nil_of_isTxnID (hs.clients _ w' hw').isTxn rfl
  | intent m w' v hm hw' hwrote hv hdel hh hst =>
    rw [hown m hm (ne_nil_of_isTxnID (hs.clients _ w' hw').isTxn), hw, Option.some.injEq] at hw'
    subst hw'
    exact ⟨fun t v ht => hh t v ht (by simp [hrun]), fun t ht => hst t ht (by simp [hrun])⟩

/-- A put keeps the history; the cell then holds the writer's new intent. -/
lemma write (hs : Told s) (hok : CellLeft s c) (hc : CellHist s h k c) (hcar : Carries s s' k)
    {id : Key} {w w' : Client} {v : Value} (hw : s.clients.get id = some w)
    (hrun : w.phase = .running) (hput : WrittenTo c (w.putRequest k v) c')
    (hget : ∀ i, s'.clients.get i = if i = id then some w' else s.clients.get i)
    (htxn : w'.txn = w.txn) (hphase : w'.phase = w.phase)
    (hwrote : w'.wrote k = if c.skips v then w.wrote k else some v) : CellHist s' h k c' := by
  have hid : w.txn.id = id := (hs.clients id w hw).id_eq
  cases hput with
  | skip hskip =>
    refine hc.carries hcar fun i x x' hx hx' => ?_
    rw [hget] at hx'
    split_ifs at hx' with hi
    · rw [hi, hw, Option.some.injEq] at hx
      rw [← Option.some.inj hx', ← hx]
      exact hwrote.trans (if_pos hskip)
    · rw [hx, Option.some.injEq] at hx'
      rw [hx']
  | write hskip hold hown =>
    have hw' : s'.clients.get id = some w' := by rw [hget, if_pos rfl]
    have hself : w'.wrote k = some v := hwrote.trans (if_neg hskip)
    obtain ⟨hh, hst⟩ := hc.below_start hs hok hw hrun hold
      fun m hm hne => (hown m hm hne).trans hid
    refine .intent _ w' v rfl (by rw [show (w.putRequest k v).txn.id = id from hid, hw']) hself
      ((Cell.write_vers _ _ _ _).trans (if_pos rfl)) bytes_of_isNoneValue (fun t v' ht _ => ?_)
      fun t ht _ => ?_
    · obtain ⟨hvt, hlt⟩ := hh t v' ht
      exact ⟨(Cell.write_vers _ _ _ _).trans ((if_neg hlt.ne).trans hvt), htxn ▸ hlt⟩
    · rw [Cell.write_vers] at ht ⊢
      split_ifs at ht ⊢ with hts
      · refine .inr ⟨id, w', hw', by simp [hself], htxn ▸ hts.ge, fun u hu => ?_⟩
        simp [hphase, hrun] at hu
      · exact (hst t ht).imp_right (·.carries hcar)

/-- The intent of a transaction that has committed at `u` becomes the version at `u`. -/
lemma settle (hc : CellHist s h k c) (hs : Told s) {m : MVCCMetadata} {w : Client}
    {u : Timestamp} {v : Value} (hm : c.metaData = some m) (hne : m.transactionID ≠ [])
    (hw : s.clients.get m.transactionID = some w) (hphase : w.phase = .ended true u)
    (hwrote : w.wrote k = some v) (hnow : h u = some v)
    (hm' : c'.metaData = some ⟨[], u, m.deleted⟩) (hu : c'.vers u = some v)
    (hvers : ∀ t ≠ u, c'.vers t = c.vers t) : CellHist s h k c' := by
  obtain ⟨w', v', hw', hwrote', -, hdel, hh, hst⟩ := hc.intent_of hm hne
  rw [hw, Option.some.injEq] at hw'
  subst hw'
  rw [hwrote, Option.some.injEq] at hwrote'
  subst hwrote'
  have hother : ∀ t ≠ u, w.phase ≠ .ended true t := fun t ht hp => by
    rw [hphase] at hp
    cases hp
    exact ht rfl
  have hlt := ((hs.clients _ w hw).drawn u (by rw [hphase]; rfl)).2.2.1
  refine .committed _ v hm' rfl hnow hdel (fun t ht => ?_) (fun t v' ht => ?_) fun t ht => ?_
  · by_cases htu : t = u
    · exact htu.le
    · obtain ⟨v', hv'⟩ := Option.ne_none_iff_exists'.mp ht
      exact ((hh t v' hv' (hother t htu)).2.trans hlt).le
  · by_cases htu : t = u
    · rw [htu, hu, ← hnow, ← htu, ht]
    · rw [hvers t htu]
      exact (hh t v' ht (hother t htu)).1
  · by_cases htu : t = u
    · rw [htu]
      exact .inl (hnow.trans hu.symm)
    · rw [hvers t htu] at ht ⊢
      exact hst t ht (hother t htu)

/-- **A resolution keeps the history.** -/
theorem turned (hs : Base s) (hok : CellLeft s c) (hc : CellHist s h k c) {m : MVCCMetadata}
    {txn : Transaction} (hh : HandedOk s txn) (hm : c.metaData = some m)
    (hid : m.transactionID = txn.id) (hres : TurnedTo c m txn c')
    (hcom : ∀ id w t v, s.clients.get id = some w → w.phase = .ended true t →
      w.wrote k = some v → h t = some v) : CellHist s h k c' := by
  have hne : m.transactionID ≠ [] := hid ▸ ne_nil_of_isTxnID hh.1
  obtain ⟨w, v, hw, hwrote, hv, hdel, hhist, hst⟩ := hc.intent_of hm hne
  obtain ⟨w₁, r, hw₁, -, hr, hlo, hhi, -⟩ := hok.intent_of hm hne
  rw [hw, Option.some.injEq] at hw₁
  subst hw₁
  have hended : txn.status = .committed → w.phase = .ended true txn.timestamp := fun hst => by
    obtain ⟨w', hw', hp⟩ := hh.ended hs hst
    rw [← hid, hw, Option.some.injEq] at hw'
    rwa [hw']
  obtain ⟨-, -, r', hr', hpend, -, hts⟩ := hh
  rw [← hid, hr, Option.some.injEq] at hr'
  subst hr'
  have hfinds : ∀ v', Finds c.vers m.timestamp (some v') → v' = v := fun v' hv' =>
    Option.some.inj (hv'.unique (finds_some hv le_rfl fun u _ hu => hu))
  cases hres with
  | stay => exact hc
  | push v' hp hlt hv' =>
    obtain rfl := hfinds v' hv'
    refine .intent _ w v' rfl (by rw [← hid, hw]) hwrote (by simp) hdel
      (fun t v₁ ht hph => ?_) fun t ht hph => ?_
    · obtain ⟨hvt, hbelow⟩ := hhist t v₁ ht hph
      rw [Cell.setVer_vers, if_neg ((hbelow.trans_le hlo).trans hlt).ne]
      exact ⟨hvt, hbelow⟩
    · rw [Cell.setVer_vers] at ht ⊢
      split_ifs at ht ⊢ with htt
      · -- the new version is stale, for the record is not past the commit
        refine .inr ⟨_, w, hw, by simp [hwrote], htt ▸ hlo.trans hlt.le, fun u hu => ?_⟩
        obtain ⟨r', hr', -, hts'⟩ := (hs.clients _ w hw).committed u hu
        rw [hr, Option.some.injEq] at hr'
        have hle : txn.timestamp ≤ u := hts' ▸ hr' ▸ hpend hp
        refine lt_of_le_of_ne (htt ▸ hle) fun heq => hph ?_
        rw [hu, heq]
      · exact hst t ht hph
  | commit hc' hle =>
    have heq : m.timestamp = txn.timestamp := le_antisymm (hts hc' ▸ hhi) hle
    exact hc.settle hs.toTold hm hne hw (hended hc') hwrote
      (hcom _ w _ v hw (hended hc') hwrote) rfl (heq ▸ hv) fun _ _ => rfl
  | commitMove v' hc' hlt hv' =>
    obtain rfl := hfinds v' hv'
    exact hc.settle hs.toTold hm hne hw (hended hc') hwrote
      (hcom _ w _ v' hw (hended hc') hwrote) rfl (by simp) fun t ht => by simp [ht]

/-- An end request that commits adds to the history what the intent holds. -/
lemma commit (hs : Told s) (hok : CellLeft s c) (hc : CellHist s h k c) {id : Key} {cl : Client}
    {ts : Timestamp} {r : Transaction} (hcom : Commits s a s' id cl ts r)
    (hheld : (cl.wrote k).isSome → ∃ m, c.metaData = some m ∧ m.transactionID = id) :
    CellHist s' (addCommit h ts (cl.wrote k)) k c := by
  have hid := ne_nil_of_isTxnID (hs.clients id cl hcom.client).isTxn
  by_cases hwr : (cl.wrote k).isSome
  · obtain ⟨m, hm, hmid⟩ := hheld hwr
    obtain ⟨w, v, hw, hwrote, hv, hdel, hh, hst⟩ := hc.intent_of hm (hmid ▸ hid)
    obtain ⟨-, r', -, -, hr', -, -, hle⟩ := hok.intent_of hm (hmid ▸ hid)
    rw [hmid, hcom.client, Option.some.injEq] at hw
    subst hw
    rw [hmid, hcom.record, Option.some.injEq] at hr'
    subst hr'
    have hadd : ∀ t ≠ ts, addCommit h ts (cl.wrote k) t = h t := fun t ht => if_neg fun h => ht h.1
    refine .intent m { cl with phase := .ended true ts } v hm (by rw [hcom.get, if_pos hmid])
      hwrote hv hdel (fun t v' ht hp => ?_) fun t ht hp => ?_
    · have htts : t ≠ ts := by rintro rfl; exact hp rfl
      rw [hadd t htts] at ht
      exact hh t v' ht (by simp [hcom.phase])
    · have htts : t ≠ ts := by rintro rfl; exact hp rfl
      rw [hadd t htts]
      refine (hst t ht (by simp [hcom.phase])).imp_right (·.commit hcom fun _ => ?_)
      exact lt_of_le_of_ne ((hle t ht).trans hcom.inTime) htts
  · have hadd : addCommit h ts (cl.wrote k) = h := funext fun t => if_neg fun h => hwr h.2
    rw [hadd]
    cases hc with
    | absent hm hh => exact .absent hm hh
    | committed m v hm hid hnow hdel hold hh hst =>
      exact .committed m v hm hid hnow hdel hold hh fun t ht =>
        (hst t ht).imp_right (·.commit hcom fun h => absurd h hwr)
    | intent m w v hm hw hwrote hv hdel hh hst =>
      have hmid : m.transactionID ≠ id := fun hmid => by
        rw [hmid, hcom.client, Option.some.injEq] at hw
        simp [hw, hwrote] at hwr
      exact .intent m w v hm (by rw [hcom.get, if_neg hmid, hw]) hwrote hv hdel hh
        fun t ht hp => (hst t ht hp).imp_right (·.commit hcom fun h => absurd h hwr)

/-! ### Reads -/

/-- A read at or past the metadata of a committed key finds the newest version of the
history. -/
lemma finds_settled (hok : CellLeft s c) (hc : CellHist s h k c) (hs : Told s)
    {m : MVCCMetadata} {ts : Timestamp} (hm : c.metaData = some m) (hid : m.transactionID = [])
    (hle : m.timestamp ≤ ts) :
    ∃ v, Finds h ts (some v) ∧ Finds c.vers ts (some v) ∧ (m.deleted = true → v.bytes = []) := by
  have hnone : ∀ w, s.clients.get m.transactionID ≠ some w := fun w hw =>
    ne_nil_of_isTxnID (hs.clients _ w hw).isTxn hid
  cases hc with
  | absent hm' _ => simp [hm] at hm'
  | intent m' w v hm' hw _ _ _ _ _ =>
    rw [hm, Option.some.injEq] at hm'
    exact absurd (hm' ▸ hw) (hnone w)
  | committed m' v hm' _ hnow hdel hold hh _ =>
    rw [hm, Option.some.injEq] at hm'
    subst hm'
    refine ⟨v, finds_some hnow hle fun u hu _ => hold u hu,
      finds_some (hh _ v hnow) hle fun u hu _ => ?_, hdel⟩
    cases hok with
    | absent hm' _ => simp [hm] at hm'
    | committed m' hm' _ _ hv =>
      rw [hm, Option.some.injEq] at hm'
      exact hm' ▸ hv u hu
    | intent m' w r hm' hw _ _ _ _ _ =>
      rw [hm, Option.some.injEq] at hm'
      exact absurd (hm' ▸ hw) (hnone w)

/-- Below the metadata the cell holds the history and what is stale. -/
lemma below (hs : Told s) (hok : CellLeft s c) (hc : CellHist s h k c) {m : MVCCMetadata}
    {ts : Timestamp} (hm : c.metaData = some m) (hlt : ts < m.timestamp) :
    (∀ u ≤ ts, ∀ v, h u = some v → c.vers u = some v) ∧
      ∀ u ≤ ts, c.vers u ≠ none → h u = c.vers u ∨ Stale s k u := by
  by_cases hid : m.transactionID = []
  · cases hc with
    | absent hm' _ => simp [hm] at hm'
    | committed m' v hm' _ _ _ _ hh hst => exact ⟨fun u _ => hh u, fun u _ => hst u⟩
    | intent m' w v hm' hw _ _ _ _ _ =>
      rw [hm, Option.some.injEq] at hm'
      exact absurd (hm' ▸ hid) (ne_nil_of_isTxnID (hs.clients _ w hw).isTxn)
  · obtain ⟨w, v, hw, -, -, -, hh, hst⟩ := hc.intent_of hm hid
    obtain ⟨w', r, hw', -, hr, -, hhi, -⟩ := hok.intent_of hm hid
    have hphase : ∀ u ≤ ts, w.phase ≠ .ended true u := fun u hu hp => by
      -- a commit of the writer lies at or above the intent
      obtain ⟨r', hr', -, hts⟩ := (hs.clients _ w hw).committed u hp
      rw [hr, Option.some.injEq] at hr'
      exact absurd (hu.trans_lt hlt) (not_lt.mpr (hts ▸ hr' ▸ hhi))
    exact ⟨fun u hu v' hv' => (hh u v' hv' (hphase u hu)).1,
      fun u hu hne => hst u hne (hphase u hu)⟩

/-- A read below the metadata finds what the history has, when every transaction that has
written the key and started by then has committed by then. -/
lemma finds_below (hs : Told s) (hok : CellLeft s c) (hc : CellHist s h k c) {m : MVCCMetadata}
    {ts : Timestamp} {r : Option Value} (hm : c.metaData = some m) (hlt : ts < m.timestamp)
    (hcom : ∀ id w t v, s.clients.get id = some w → w.phase = .ended true t →
      w.wrote k = some v → h t = some v)
    (hover : ∀ id x, s.clients.get id = some x → (x.wrote k).isSome → x.txn.timestamp ≤ ts →
      ∃ u ≤ ts, x.phase = .ended true u)
    (hr : Finds c.vers ts r) : Finds h ts r := by
  obtain ⟨hin, hst⟩ := hc.below hs hok hm hlt
  have hnone : ∀ u ≤ ts, c.vers u = none → h u = none := fun u hu hv => by
    by_contra hne
    obtain ⟨v, hv'⟩ := Option.ne_none_iff_exists'.mp hne
    simp [hin u hu v hv'] at hv
  cases r with
  | none => exact fun u hu => hnone u hu (hr u hu)
  | some v =>
    obtain ⟨t, ht, hv, hmax⟩ := hr
    refine ⟨t, ht, ?_, fun u htu hu => hnone u hu (hmax u htu hu)⟩
    rcases hst t ht (by simp [hv]) with heq | ⟨id, x, hx, hwr, hle, hend⟩
    · exact heq.trans hv
    · -- the version would be stale, but that transaction's commit comes after it
      obtain ⟨u, hu, hp⟩ := hover id x hx hwr (hle.trans ht)
      obtain ⟨v', hv'⟩ := Option.isSome_iff_exists.mp hwr
      have hvu := hin u hu v' (hcom id x u v' hx hp hv')
      simp [hmax u (hend u hp) hu] at hvu

end CellHist

/-! ### Steps -/

/-- The history of key `k` in a run from `s₀` on badger and the cell that holds it. -/
structure Hist (s₀ s : Sys) (k : Key) (h : Timestamp → Option Value) : Prop
    extends Ledger s₀ s k h where
  cell : CellHist s h k (cell s.st.eng k)
  holds : Holds s k

/-- Whose intent it is has written the key. -/
lemma Hist.owned (hs : Told s) (hv : Hist s₀ s k h) {id : Key} {w : Client} {m : MVCCMetadata}
    (hw : s.clients.get id = some w) (hm : metaAt s.st.eng k = some m)
    (hid : m.transactionID = id) : (w.wrote k).isSome := by
  obtain ⟨w', v, hw', hwr, -⟩ := hv.cell.intent_of hm
    (hid ▸ ne_nil_of_isTxnID (hs.clients id w hw).isTxn)
  rw [hid, hw, Option.some.injEq] at hw'
  simp [hw', hwr]

lemma Init.hist (hi : Init s₀) (hk : isUserKey k) : Hist s₀ s₀ k (verAt s₀.st.eng k) where
  toLedger := hi.ledger k
  cell := by
    rcases hi.committed k hk with ⟨hm, hv⟩ | ⟨m, v, hm, hid, hv, hdel, -, hold⟩
    · exact .absent hm hv
    · exact .committed m v hm hid hv hdel hold (fun _ _ ht => ht) fun _ _ => .inl rfl
  holds := fun id w r hw => by simp [hi.noClient] at hw

/-- Everything in the history is older than the start of a transaction that is about to commit
and has written the key. -/
lemma Hist.before_commit (hs : Told s) (hv : Hist s₀ s k h) {id : Key} {cl : Client}
    {r : Transaction} {ts : Timestamp} (hc : Commits s a s' id cl ts r)
    (hwrote : (cl.wrote k).isSome) {t : Timestamp} (ht : h t ≠ none) : t < cl.txn.timestamp := by
  obtain ⟨m, hm, hmid⟩ := hv.holds id cl r hc.client hwrote hc.record hc.pending
  obtain ⟨w, -, hw, -, -, -, hh, -⟩ := hv.cell.intent_of hm
    (hmid ▸ ne_nil_of_isTxnID (hs.clients id cl hc.client).isTxn)
  rw [hmid, hc.client, Option.some.injEq] at hw
  subst hw
  obtain ⟨v, hv'⟩ := Option.ne_none_iff_exists'.mp ht
  exact (hh t v hv' (by simp [hc.phase])).2

/-- **Every step keeps a history of the key**, and what has been read of it. -/
theorem Hist.step [Slices] (hs : Residue s) (hv : Hist s₀ s k h) (hk : isUserKey k)
    (hin : InTime s a) (hn : NoUncover s a) (he : Effect s a s') :
    ∃ h', Hist s₀ s' k h' ∧ ∀ id w w' b, s.clients.get id = some w → w'.txn = w.txn →
      ReadOk s h k w b → ReadOk s' h' k w' b := by
  have hl := he.later hs.toBase
  have hrec := he.move.recKept
  have hok := hs.cells k hk
  have hholds := hv.holds.step hs.toBase hk hv.begun he
  rcases he.move.carries_or_commits hin k with hc | ⟨id, cl, ts, r, hc⟩
  · refine ⟨h, ⟨hv.toLedger.carries hl.clock hc, ?_, hholds⟩, fun i w w' b hw htxn hread =>
      hread.carries hs.toTold hv.toLedger hrec hc hw htxn⟩
    rcases he.left_cases hs.toBase hn hk with ⟨heq, hsame⟩ |
      ⟨id, v, w, -, hw, hrun, -, hget, hput⟩ | ⟨txn, m, -, hin', hclients, hm, hid, hres⟩
    · exact heq ▸ hv.cell.carries hc hsame
    · refine hv.cell.write hs.toTold hok hc hw hrun hput hget rfl rfl ?_
      cases hskip : (Ancestor.cell s.st.eng k).skips v <;> simp [Sys.records, hskip, wrote_cons]
    · exact (hv.cell.turned hs.toBase hok (hs.handed txn hin') hm hid hres hv.committed).carries hc
        (SameWrites.of_eq hclients)
  · refine ⟨_, ⟨hv.toLedger.commit hs.toTold hc fun hw _ => hv.before_commit hs.toTold hc hw, ?_,
      hholds⟩, fun i w w' b hw htxn hread =>
      hread.commits hs.toTold hv.toLedger hrec hc hw htxn⟩
    rcases he.cell_cases hs.toBase hk with ⟨heq, -⟩ | ⟨i, v, w, ha, -⟩ | ⟨txn, m, ha, -⟩
    · rw [heq]
      exact hv.cell.commit hs.toTold hok hc
        fun hw => hv.holds id cl r hc.client hw hc.record hc.pending
    · rw [hc.act] at ha
      cases ha
    · rw [hc.act] at ha
      cases ha

end Ancestor.Protocol
