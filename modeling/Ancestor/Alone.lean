import Ancestor.ProtocolInv
import Ancestor.Session

/-!
The engine under a transaction that runs alone.

Every cell is committed at or below the transaction's timestamp, or carries its own intent at
that timestamp. What the transaction reads is then the newest version of a cell, and what it
writes becomes the newest version. A deletion is stored as an empty version with a mark on the
metadata, or not at all where there is nothing to delete; a reader sees the same in both cases.
-/

namespace Ancestor

open M Hoare Versions
open Client (putRequest)
open Protocol (isUserKey isTxnID Laid ne_nil_of_isUserKey cell_put_txn)

/-! ### Cells -/

/-- The bytes of a value; the empty string stands for nothing. -/
def Value.content (v : Value) : Option Bytes := if v.bytes = [] then none else some v.bytes

namespace Cell

/-- The content of the newest version. -/
def shown (c : Cell) : Option Bytes :=
  c.metaData.bind fun m => (c.vers m.timestamp).bind Value.content

/-- A cell that only `txn` may have an intent on. -/
inductive Alone (c : Cell) (txn : Transaction) : Prop
  | absent (hm : c.metaData = none) (hv : ∀ t, c.vers t = none)
  | newest (m : MVCCMetadata) (v : Value) (hm : c.metaData = some m)
    (hid : m.transactionID = [] ∧ m.timestamp ≤ txn.timestamp ∨
      m.transactionID = txn.id ∧ m.timestamp = txn.timestamp)
    (hv : c.vers m.timestamp = some v) (hdel : m.deleted = true → v.bytes = [])
    (hlast : ∀ t, c.vers t ≠ none → t ≤ m.timestamp)

variable {c : Cell} {txn : Transaction}

lemma shown_newest {m : MVCCMetadata} {v : Value} (hm : c.metaData = some m)
    (hv : c.vers m.timestamp = some v) : c.shown = v.content := by
  simp only [shown, hm, Option.bind_some, hv]

/-- The value of a put: the nil of a deletion goes out as the empty value. -/
lemma isNoneValue_iff (b : Option Bytes) (hb : b ≠ some []) :
    isNoneValue { bytes := b.getD [] } = true ↔ b = none := by
  cases b with
  | none => simp [isNoneValue]
  | some x =>
    have hx : x ≠ [] := fun h => hb (h ▸ rfl)
    simp [isNoneValue, hx]

lemma Alone.check [Backend] {req : PutRequest} (h : c.Alone req.txn)
    (hts : req.timestamp = req.txn.timestamp) : c.check req = .ok c := by
  cases h with
  | absent hm hv => simp only [Cell.check, hm]
  | newest m v hm hid hv hdel hlast =>
    simp only [Cell.check, hm]
    rcases hid with ⟨hnil, hle⟩ | ⟨hown, heq⟩
    · rw [if_pos hnil, if_neg (not_lt.mpr (hts ▸ hle))]
    · by_cases hnil : m.transactionID = []
      · rw [if_pos hnil, if_neg (not_lt.mpr (hts ▸ heq.le))]
      · rw [if_neg hnil, if_neg (not_not.mpr hown), if_pos (hts ▸ heq)]

/-- **A put by the transaction becomes the newest version**, or leaves nothing where nothing
was. -/
lemma Alone.put [Backend] (h : c.Alone txn) (rangeID : RangeID) (k : Key) {b : Option Bytes}
    (hb : b ≠ some []) :
    ∃ c', c.put (putRequest txn rangeID k b) = .ok c' ∧ c'.Alone txn ∧ c'.shown = b := by
  have hput : c.put (putRequest txn rangeID k b) = .ok (if c.skips { bytes := b.getD [] } then c
      else c.write txn { bytes := b.getD [] }) := by
    rw [Cell.put, Alone.check h rfl]
    rfl
  refine ⟨_, hput, ?_⟩
  by_cases hskip : c.skips { bytes := b.getD [] } = true
  · -- the deletion of what is absent or deleted
    rw [if_pos hskip]
    refine ⟨h, ?_⟩
    rw [skips, Bool.and_eq_true, isNoneValue_iff b hb] at hskip
    obtain ⟨rfl, hdeleted⟩ := hskip
    cases h with
    | absent hm hv => simp [shown, hm]
    | newest m v hm hid hv hdel hlast =>
      rw [shown_newest hm hv, Value.content, if_pos (hdel (by simpa [hm] using hdeleted))]
  · rw [if_neg hskip]
    have hself : (c.write txn { bytes := b.getD [] }).vers txn.timestamp =
        some { bytes := b.getD [] } := by simp
    refine ⟨.newest _ _ (write_metaData _ _ _) (.inr ⟨rfl, rfl⟩) hself (fun hd => ?_)
      fun t ht => ?_, ?_⟩
    · exact bytes_of_isNoneValue hd
    · rw [write_vers] at ht
      by_cases htt : t = txn.timestamp
      · exact htt.le
      · rw [if_neg htt] at ht
        cases h with
        | absent hm hv => exact absurd (hv t) ht
        | newest m v hm hid hv hdel hlast =>
          exact (hlast t ht).trans (hid.elim And.right fun h => h.2.le)
    · rw [shown_newest (write_metaData _ _ _) hself, Value.content]
      cases b with
      | none => rfl
      | some x => exact if_neg fun h => hb (by rw [show x = [] from h])

end Cell

/-! ### The engine -/

/-- The engine holds cells of the transaction alone. -/
structure Held (txn : Transaction) (eng : Engine) : Prop extends Laid eng where
  alone : ∀ k, isUserKey k → (cell eng k).Alone txn

/-- What a reader of the newest versions sees under a key. -/
def shownAt (eng : Engine) (k : Key) : Option Bytes := (cell eng k).shown

section Engine

variable {txn : Transaction} {eng : Engine} {k : Key}

/-- **A read by the transaction finds what is shown.** -/
theorem Held.getInternal (h : Held txn eng) (hts : txn.timestamp.Nonneg) (hk : isUserKey k) :
    ∃ r, getInternal eng k txn.timestamp txn = .ok r ∧ r.bind Value.content = shownAt eng k := by
  have hne := ne_nil_of_isUserKey hk
  rw [getInternal_eq (h.dataKey k hk) hne]
  cases h.alone k hk with
  | absent hm hv =>
    rw [cell_metaData] at hm
    exact ⟨none, by rw [hm], by simp [shownAt, Cell.shown, hm]⟩
  | newest m v hm hid hv hdel hlast =>
    rw [shownAt, Cell.shown_newest hm hv]
    rw [cell_metaData] at hm
    rw [cell_vers] at hv hlast
    -- at the intent's timestamp and at the transaction's the newest version is found
    have hfind : ∀ t, m.timestamp ≤ t → t.Nonneg →
        (mvccGet eng k t).map (·.1) = .ok (some v) := by
      intro t hle hnn
      obtain ⟨r, a, b, hget, hr⟩ := mvccGet_spec (k := k) h.ok hne hnn
      rw [hget, hr.unique (finds_some hv hle fun u hu _ => hlast u hu)]
      rfl
    have hle : m.timestamp ≤ txn.timestamp := hid.elim And.right fun h => h.2.le
    have hfree : ¬ (m.transactionID ≠ [] ∧ m.transactionID ≠ txn.id ∧
        m.timestamp ≤ txn.timestamp) :=
      fun hblock => hid.elim (fun h => hblock.1 h.1) fun h => hblock.2.1 h.1
    simp only [hm, if_neg hfree]
    by_cases hgone : m.deleted = true ∧ (if m.transactionID = [] then m.timestamp ≤ txn.timestamp
        else m.transactionID = txn.id)
    · exact ⟨none, if_pos hgone, (if_pos (hdel hgone.1)).symm⟩
    · refine ⟨some v, ?_, rfl⟩
      rw [if_neg hgone]
      split_ifs
      · exact hfind _ le_rfl (h.ok.meta_nonneg hm)
      · exact hfind _ hle hts

/-- **A put by the transaction shows at its key** and nowhere else. -/
theorem Held.put [Backend] {s : St} (h : Held txn s.eng) (hts : txn.timestamp.Nonneg)
    (hk : isUserKey k)
    (rangeID : RangeID) {b : Option Bytes} (hb : b ≠ some []) :
    ∃ s', Ancestor.put (putRequest txn rangeID k b) s = .ok () s' ∧ Held txn s'.eng ∧
      shownAt s'.eng k = b ∧ ∀ k' ≠ k, shownAt s'.eng k' = shownAt s.eng k' := by
  obtain ⟨c, hc, halone, hshown⟩ := (h.alone k hk).put rangeID k hb
  have hrun := put_run (putRequest txn rangeID k b) h.ok (h.dataKey k hk)
    (ne_nil_of_isUserKey hk) hts
  rw [show cell s.eng (putRequest txn rangeID k b).key = cell s.eng k from rfl, hc] at hrun
  obtain ⟨s', hs', hu⟩ := hrun
  refine ⟨s', hs', ⟨h.toLaid.updates hu, fun k' hk' => ?_⟩, ?_, fun k' hne => ?_⟩
  · by_cases hne : k' = k
    · subst hne
      rw [show cell s'.eng k' = c from hu.cell_self]
      exact halone
    · rw [cell_updates hu hne]
      exact h.alone k' hk'
  · rw [shownAt, show cell s'.eng k = c from hu.cell_self, hshown]
  · rw [shownAt, cell_updates hu hne, shownAt]

lemma Held.put_txn (h : Held txn eng) {id : Key} (hid : isTxnID id) (r : Transaction) :
    Held txn (eng.put (newMVCCKey id) (.txn r)) where
  toLaid := h.toLaid.put_txn hid r
  alone := fun k hk => by
    rw [cell_put_txn hk hid]
    exact h.alone k hk

end Engine

/-! ### The store -/

section Store

variable {s : Store} {r : Replica} {id : RangeID} {txn : Transaction}

/-- The puts of the buffer `c` to the keys `ks` have been made; nothing else has changed. -/
structure Wrote (txn : Transaction) (c : OrdMap Key (Option Bytes)) (ks : List Key)
    (s s' : Store) : Prop where
  held : Held txn s'.eng
  replicas : s'.replicas = s.replicas
  wrote : ∀ k ∈ ks, ∀ b, c.get k = some b → shownAt s'.eng k = b
  rest : ∀ k ∉ ks, shownAt s'.eng k = shownAt s.eng k

variable {c : OrdMap Key (Option Bytes)}

lemma Wrote.refl (h : Held txn s.eng) : Wrote txn c [] s s :=
  ⟨h, rfl, fun _ hk => (by cases hk), fun _ _ => rfl⟩

lemma Wrote.trans {ks ks' : List Key} {s' s'' : Store} (h : Wrote txn c ks s s')
    (h' : Wrote txn c ks' s' s'') : Wrote txn c (ks ++ ks') s s'' where
  held := h'.held
  replicas := h'.replicas.trans h.replicas
  wrote := fun k hk b hb => by
    by_cases hk' : k ∈ ks'
    · exact h'.wrote k hk' b hb
    · have hin : k ∈ ks := (List.mem_append.mp hk).resolve_right hk'
      exact (h'.rest k hk').trans (h.wrote k hin b hb)
  rest := fun k hk => by
    rw [List.mem_append, not_or] at hk
    exact (h'.rest k hk.2).trans (h.rest k hk.1)

/-- A put of what the buffer has, to a key of the replica. -/
def PutOf (txn : Transaction) (c : OrdMap Key (Option Bytes)) (r : Replica) (req : PutRequest) :
    Prop :=
  ∃ k b, isUserKey k ∧ b ≠ some [] ∧ c.get k = some b ∧ r.rangeDesc.Covers k ∧
    req = putRequest txn r.rangeID k b

/-- **A batch of puts writes its keys.** -/
theorem execute_puts [Backend] (hts : txn.timestamp.Nonneg) (h : Held txn s.eng)
    (hr : s.replicas id = some r) {reqs : List PutRequest}
    (hreqs : ∀ req ∈ reqs, PutOf txn c r req) :
    ∃ resps s', execute id [] (reqs.map .put) s = .ok resps s' ∧
      Wrote txn c (reqs.map (·.key)) s s' := by
  induction reqs generalizing s with
  | nil => exact ⟨[], s, rfl, .refl h⟩
  | cons req reqs ih =>
    obtain ⟨k, b, hk, hb, hget, hcov, rfl⟩ := hreqs _ List.mem_cons_self
    obtain ⟨st, hst, hheld, hshown, hrest⟩ :=
      h.put (s := ⟨s.eng, s.rangeStats r.rangeID⟩) hts hk r.rangeID hb
    have hone : r.executeCmd (.put (putRequest txn r.rangeID k b)) s = .ok .put (r.keep s st) :=
      executeCmd_ok (f := fun _ => .put) ((validateKeyRange_iff r k).mpr hcov) rfl hst
    have hwrote : Wrote txn c [k] s (r.keep s st) := by
      refine ⟨hheld, rfl, fun k' hk' b' hb' => ?_, fun k' hk' => hrest k' (by simpa using hk')⟩
      obtain rfl := List.mem_singleton.mp hk'
      rw [hget, Option.some.injEq] at hb'
      exact hb' ▸ hshown
    obtain ⟨resps, s', hrun, hmore⟩ := ih (s := r.keep s st) hheld hr
      fun req hreq => hreqs req (.tail _ hreq)
    exact ⟨_, s', execute_cons_ok hr hone hrun, hwrote.trans hmore⟩

/-- **A get answers what is shown.** -/
theorem execute_get [Backend] (hts : txn.timestamp.Nonneg) (h : Held txn s.eng)
    (hr : s.replicas id = some r) {k : Key} (hk : isUserKey k) (hcov : r.rangeDesc.Covers k)
    (rangeID : RangeID) :
    ∃ v, execute id [] [.get { key := k, timestamp := txn.timestamp, rangeID, txn }] s =
        .ok [.get v] s ∧ v.content = shownAt s.eng k := by
  obtain ⟨o, hget, hshown⟩ := h.getInternal hts hk
  have hread : M.read (Ancestor.get · { key := k, timestamp := txn.timestamp, rangeID, txn })
      ⟨s.eng, s.rangeStats r.rangeID⟩ = .ok (o.getD {}) ⟨s.eng, s.rangeStats r.rangeID⟩ := by
    refine read_ok ?_
    simp only [Ancestor.get, hget, bind, Except.bind]
    rfl
  have hone : r.executeCmd (.get { key := k, timestamp := txn.timestamp, rangeID, txn }) s =
      .ok (.get (o.getD {})) s := by
    have hcmd : r.executeCmd (.get { key := k, timestamp := txn.timestamp, rangeID, txn }) s =
        .ok _ (r.keep s _) :=
      executeCmd_ok (f := .get) ((validateKeyRange_iff r k).mpr hcov) rfl hread
    rwa [keep_self] at hcmd
  refine ⟨o.getD {}, execute_cons_ok hr hone rfl, ?_⟩
  rw [← hshown]
  cases o <;> rfl

end Store

/-! ### Rows -/

section Rows

variable {eng : Engine} {txn : Transaction} {k s e : Key}

lemma isUserKey_of_between (h : userPrefix ≤ k) (h' : k < endPrefix) : isUserKey k := by
  cases k with
  | nil => exact absurd h (by decide)
  | cons a l =>
    rw [userPrefix, ← not_lt, List.cons_lt_cons_iff, not_or] at h
    rw [endPrefix, List.cons_lt_cons_iff] at h'
    have hlt : a < 0x03 := h'.resolve_right fun h' => absurd h'.2 (List.not_lt_nil l)
    have hge : 0x02 ≤ a := UInt8.not_lt.mp h.1
    have ha : a = 0x02 := by
      have h1 := UInt8.le_iff_toNat_le.mp hge
      have h2 := UInt8.lt_iff_toNat_lt.mp hlt
      exact UInt8.toNat_inj.mp (by simp at h1 h2 ⊢; omega)
    rw [isUserKey, ha]
    rfl

lemma between_of_isUserKey (h : isUserKey k) : userPrefix ≤ k ∧ k < endPrefix := by
  cases k with
  | nil => simp [isUserKey, userPrefix] at h
  | cons a l =>
    have ha : a = 0x02 := by simpa [isUserKey, userPrefix] using h
    subst ha
    exact ⟨Bytes.cons_le_cons (Bytes.nil_le l), List.cons_lt_cons_iff.mpr (.inl (by decide))⟩

/-- The row of a key has what is shown there. -/
lemma Held.rowOf (h : Held txn eng) (hts : txn.timestamp.Nonneg) (hk : isUserKey k) :
    (Ancestor.rowOf eng txn.timestamp txn k).map (·.value.bytes) = shownAt eng k := by
  obtain ⟨r, hget, hshown⟩ := h.getInternal hts hk
  rw [Ancestor.rowOf, hget, ← hshown]
  cases r with
  | none => rfl
  | some v =>
    simp only [Option.bind_some, Value.content, List.length_eq_zero_iff]
    split_ifs <;> rfl

lemma mem_keysOf_of_shown (hok : EngineOk eng) {b : Bytes} (h : shownAt eng k = some b) :
    k ∈ keysOf eng := by
  obtain ⟨m, hm, -⟩ := Option.bind_eq_some_iff.mp h
  have hget : ∃ e, eng.get (newMVCCKey k) = some e := by
    rw [cell_metaData, metaAt] at hm
    split at hm
    · exact ⟨_, by assumption⟩
    · cases hm
  obtain ⟨e, he⟩ := hget
  exact (mem_keysOf hok).mpr ⟨_, e, he, .inl rfl⟩

/-- The rows from `s` on, as the transaction sees them. -/
def rowsFrom (eng : Engine) (txn : Transaction) (s : Key) : List KeyValue :=
  (rowsOf eng txn.timestamp txn).filter fun row => decide (s ≤ row.key ∧ row.key < endPrefix)

lemma sorted_rowsFrom (hok : EngineOk eng) :
    (rowsFrom eng txn s).Pairwise fun a b => a.key < b.key := (sorted_rowsOf hok).filter _

/-- **The rows are what is shown.** -/
lemma mem_rowsFrom (h : Held txn eng) (hts : txn.timestamp.Nonneg) (hk : isUserKey k) {b : Bytes} :
    (∃ row ∈ rowsFrom eng txn s, row.key = k ∧ row.value.bytes = b) ↔
      s ≤ k ∧ shownAt eng k = some b := by
  have hrow := h.rowOf hts hk
  simp only [rowsFrom, rowsOf, List.mem_filter, List.mem_filterMap, decide_eq_true_iff]
  constructor
  · rintro ⟨row, ⟨⟨k', -, hrow'⟩, hs, -⟩, rfl, rfl⟩
    rw [← key_of_rowOf hrow'] at hrow'
    rw [hrow', Option.map_some] at hrow
    exact ⟨hs, hrow.symm⟩
  · rintro ⟨hs, hb⟩
    rw [hb] at hrow
    obtain ⟨row, hrow', hbytes⟩ := Option.map_eq_some_iff.mp hrow
    have hkey := key_of_rowOf hrow'
    refine ⟨row, ⟨⟨k, mem_keysOf_of_shown h.ok hb, hrow'⟩, ?_⟩, hkey, hbytes⟩
    rw [hkey]
    exact ⟨hs, (between_of_isUserKey hk).2⟩

/-- **A scan of a range answers with its first two rows.** -/
theorem sendScan_rows {st : Store} {r : Replica} {id : RangeID} (hts : txn.timestamp.Nonneg)
    (h : Held txn st.eng) (hr : st.replicas id = some r) (hcov : r.rangeDesc.Covers s)
    (hs : userPrefix ≤ s) (he : e ≤ endPrefix) (rangeID : RangeID) :
    Client.sendScan id
      { key := s, timestamp := txn.timestamp, rangeID, txn, endKey := e,
        maxResults := Client.seekScanSize } st =
      .ok (((rowsOf st.eng txn.timestamp txn).filter
        fun row => decide (s ≤ row.key ∧ row.key < e)).take 2) st := by
  have hne : s ≠ [] := by
    rintro rfl
    exact absurd hs (by decide)
  have hall : ∀ k, s ≤ k → k < e → ∃ o, getInternal st.eng k txn.timestamp txn = .ok o :=
    fun k hk hlt => by
      obtain ⟨o, ho, -⟩ := h.getInternal hts
        (isUserKey_of_between (hs.trans hk) (hlt.trans_le he))
      exact ⟨o, ho⟩
  have hmax : Client.seekScanSize.toInt = (2 : ℕ) := rfl
  have hscan := scanInternal_rows h.ok hne hall hmax (by omega)
  have hread := read_ok (s := ⟨st.eng, st.rangeStats r.rangeID⟩)
    (g := (scanInternal · s e txn txn.timestamp Client.seekScanSize false)) hscan
  have hrange := onEngine_ok (s := st) (r := r) hread
  rw [keep_self] at hrange
  rw [Client.sendScan, run_bind_ok (getReplica_ok hr)]
  simp only [(validateKeyRange_iff r s).mpr hcov, not_true, if_false]
  exact hrange

end Rows

end Ancestor
