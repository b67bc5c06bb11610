import Ancestor.Safety

/-!
The cells on badger, whose `Clear` removes nothing: a version that a push or a commit has
moved stays where it was as well, and an aborted intent stays altogether.

What is left behind does no harm to committed versions as long as no abort uncovers it: the
versions under an intent are then no newer than the record of its transaction, and those that
had been committed are older than its start.
-/

namespace Ancestor.Protocol

open Steps Versions

variable {s s' s₀ s₁ s₂ : Sys} {a : Act} {l₁ l₂ : List Act} {c c' : Cell}

attribute [local instance] Backend.badger

/-! ### Puts and resolutions of a cell -/

/-- A put on badger: it stores nothing, or it writes where no intent or its own one stands. -/
inductive WrittenTo (c : Cell) (req : PutRequest) : Cell → Prop
  | skip (hskip : c.skips req.value) : WrittenTo c req c
  | write (hskip : ¬ c.skips req.value)
    (hold : ∀ m, c.metaData = some m → m.transactionID = [] → m.timestamp ≤ req.timestamp)
    (hown : ∀ m, c.metaData = some m → m.transactionID ≠ [] → m.transactionID = req.txn.id) :
    WrittenTo c req (c.write req.txn req.value)

lemma writtenTo_of_putTo [Slices] {req : PutRequest} (h : c.PutTo req c') : WrittenTo c req c' := by
  cases h with
  | skip hskip _ => exact .skip hskip
  | write hskip hold hown => exact .write hskip hold fun m hm hne => (hown m hm hne).1
  | movedSkip m hskip _ _ _ _ => exact .skip hskip
  | movedWrite m hskip hm hne hid _ =>
    have heq : ∀ m', c.metaData = some m' → m' = m := fun m' hm' =>
      Option.some.inj (hm'.symm.trans hm)
    exact .write hskip (fun m' hm' hnil => absurd (heq m' hm' ▸ hnil) hne)
      fun m' hm' _ => heq m' hm' ▸ hid

/-- A resolution on badger that uncovers nothing: an abort changes nothing, and the version of
an intent is added where the resolution moves it. -/
inductive TurnedTo (c : Cell) (m : MVCCMetadata) (txn : Transaction) : Cell → Prop
  | stay : TurnedTo c m txn c
  | push (v : Value) (h : txn.status = .pending) (hlt : m.timestamp < txn.timestamp)
    (hv : Finds c.vers m.timestamp (some v)) :
    TurnedTo c m txn ((c.setMeta (some ⟨txn.id, txn.timestamp, m.deleted⟩)).setVer
      txn.timestamp (some v))
  | commit (h : txn.status = .committed) (hle : txn.timestamp ≤ m.timestamp) :
    TurnedTo c m txn (c.setMeta (some ⟨[], txn.timestamp, m.deleted⟩))
  | commitMove (v : Value) (h : txn.status = .committed) (hlt : m.timestamp < txn.timestamp)
    (hv : Finds c.vers m.timestamp (some v)) :
    TurnedTo c m txn ((c.setMeta (some ⟨[], txn.timestamp, m.deleted⟩)).setVer
      txn.timestamp (some v))

lemma turnedTo_of_resolved [Slices] {m : MVCCMetadata} {txn : Transaction}
    (hkept : txn.status = .aborted → ∀ u < m.timestamp, c.vers u = none)
    (h : c.Resolved m txn c') : TurnedTo c m txn c' := by
  cases h with
  | pendingStay _ _ => exact .stay
  | pendingMove v hp hlt hv => exact .push v hp hlt hv
  | commitStay hc hle => exact .commit hc hle
  | commitMove v hc hlt hv => exact .commitMove v hc hlt hv
  | abortLast _ _ => exact .stay
  | abortOlder t v ha hlt hv _ => simp [hkept ha t hlt] at hv

lemma NoUncover.kept {k : Key} {txn : Transaction} {m : MVCCMetadata}
    (h : NoUncover s (.resolve k txn)) (hm : metaAt s.st.eng k = some m)
    (hid : m.transactionID = txn.id) (ha : txn.status = .aborted) (u : Timestamp)
    (hu : u < m.timestamp) : (cell s.st.eng k).vers u = none :=
  h (k, txn.id) (by simp [Act.aborts, ha]) m hm hid u hu

/-! ### The invariant -/

/-- The newest version of a committed key is at the metadata's timestamp; under an intent no
version is newer than the record of its transaction. -/
inductive CellLeft (s : Sys) (c : Cell) : Prop
  | absent (hm : c.metaData = none) (hv : ∀ t, c.vers t = none)
  | committed (m : MVCCMetadata) (hm : c.metaData = some m) (hid : m.transactionID = [])
    (hq : Quiet s m.timestamp) (hv : ∀ t, c.vers t ≠ none → t ≤ m.timestamp)
  | intent (m : MVCCMetadata) (w : Client) (r : Transaction) (hm : c.metaData = some m)
    (hw : s.clients.get m.transactionID = some w) (hbegun : w.begun)
    (hr : recAt s.st.eng m.transactionID = some r) (hlo : w.txn.timestamp ≤ m.timestamp)
    (hhi : m.timestamp ≤ r.timestamp) (hv : ∀ t, c.vers t ≠ none → t ≤ r.timestamp)

structure Residue (s : Sys) : Prop extends Base s where
  cells : ∀ k, isUserKey k → CellLeft s (cell s.st.eng k)

lemma CellLeft.intent_of {m : MVCCMetadata} (h : CellLeft s c) (hm : c.metaData = some m)
    (hid : m.transactionID ≠ []) :
    ∃ w r, s.clients.get m.transactionID = some w ∧ w.begun ∧
      recAt s.st.eng m.transactionID = some r ∧ w.txn.timestamp ≤ m.timestamp ∧
      m.timestamp ≤ r.timestamp ∧ ∀ t, c.vers t ≠ none → t ≤ r.timestamp := by
  cases h with
  | absent hm' _ => simp [hm] at hm'
  | committed m' hm' hid' _ _ =>
    rw [hm, Option.some.injEq] at hm'
    exact absurd (hm' ▸ hid') hid
  | intent m' w r hm' hw hbegun hr hlo hhi hv =>
    rw [hm, Option.some.injEq] at hm'
    subst hm'
    exact ⟨w, r, hw, hbegun, hr, hlo, hhi, hv⟩

lemma CellLeft.later (hl : Later s s') (hs : Told s) (h : CellLeft s c) : CellLeft s' c := by
  cases h with
  | absent hm hv => exact .absent hm hv
  | committed m hm hid hq hv => exact .committed m hm hid (hq.later hl) hv
  | intent m w r hm hw hbegun hr hlo hhi hv =>
    obtain ⟨w', hw', ht, hb, -⟩ := hl.old _ w hw
    obtain ⟨r', hr', hle, -⟩ := hl.record _ r (hs.clients _ w hw).isTxn hr
    exact .intent m w' r' hm hw' (hb hbegun) hr' (ht ▸ hlo) (hhi.trans hle)
      fun t ht => (hv t ht).trans hle

/-- A write leaves an intent of the writer, over versions that are no newer than its record. -/
lemma CellLeft.write (hs : Told s) {id key : Key} {w : Client} (hw : s.clients.get id = some w)
    (hb : w.begun) (v : Value) (h : CellLeft s c) (hput : WrittenTo c (w.putRequest key v) c') :
    CellLeft s c' := by
  have hcl := hs.clients id w hw
  obtain ⟨r, hr⟩ := hcl.record hb
  obtain ⟨w', hw', -, -, hle, -⟩ := hs.records id r hcl.isTxn hr
  rw [hw, Option.some.injEq] at hw'
  subst hw'
  cases hput with
  | skip _ => exact h
  | write _ hold hown =>
    have hid : (w.putRequest key v).txn.id = id := hcl.id_eq
    refine .intent _ w r rfl (by rw [hid, hw]) hb (by rw [hid, hr]) le_rfl hle fun t ht => ?_
    rw [Cell.write_vers] at ht
    split_ifs at ht with hts
    · exact hts ▸ hle
    · cases h with
      | absent _ hv => exact absurd (hv t) ht
      | committed m hm hnil _ hv => exact ((hv t ht).trans (hold m hm hnil)).trans hle
      | intent m w' r' hm hw' _ hr' _ _ hv =>
        rw [hown m hm (ne_nil_of_isTxnID (hs.clients _ w' hw').isTxn), hid, hr,
          Option.some.injEq] at hr'
        exact hr' ▸ hv t ht

lemma CellLeft.turned (hs : Base s) {m : MVCCMetadata} {txn : Transaction} (hh : HandedOk s txn)
    (h : CellLeft s c) (hm : c.metaData = some m) (hid : m.transactionID = txn.id)
    (hres : TurnedTo c m txn c') : CellLeft s c' := by
  have hquiet : txn.status = .committed → Quiet s txn.timestamp := fun h => by
    obtain ⟨w', hw', hp⟩ := hh.ended hs h
    exact ((hs.clients _ w' hw').drawn txn.timestamp (by rw [hp]; rfl)).2.2.2
  obtain ⟨htid, -, r', hr', hpend, -, hts⟩ := hh
  obtain ⟨w, r, hw, hb, hr, hlo, hhi, hv⟩ := h.intent_of hm (hid ▸ ne_nil_of_isTxnID htid)
  rw [hid, hr', Option.some.injEq] at hr
  subst hr
  cases hres with
  | stay => exact h
  | push v hp hlt _ =>
    refine .intent _ w r' rfl (by rw [← hid, hw]) hb hr' (hlo.trans hlt.le) (hpend hp)
      fun t ht => ?_
    rw [Cell.setVer_vers] at ht
    split_ifs at ht with htt
    · exact htt ▸ hpend hp
    · exact hv t ht
  | commit hc hle =>
    refine .committed _ rfl rfl (hquiet hc) fun t ht => ?_
    exact hts hc ▸ hv t ht
  | commitMove v hc hlt _ =>
    refine .committed _ rfl rfl (hquiet hc) fun t ht => ?_
    rw [Cell.setVer_vers] at ht
    split_ifs at ht with htt
    · exact htt.le
    · exact hts hc ▸ hv t ht

lemma Init.residue (h : Init s) : Residue s where
  toBase := h.base
  cells := fun k hk => by
    rcases h.committed k hk with ⟨hm, hv⟩ | ⟨m, v, hm, hid, -, -, hle, hv⟩
    · exact .absent hm hv
    · refine .committed m hm hid ⟨hle, fun id c hc => ?_⟩ hv
      simp [h.noClient] at hc

lemma Residue.effect [Slices] (hs : Residue s) (hn : NoUncover s a)
    (h : Protocol.step s a = some s') :
    Effect s a s' :=
  step_effect hs.toBase (.inr hn) h

/-- **What a step leaves of a cell on badger**: it is the key of a put, the key of an intent
that is resolved, or it stays as it is and nobody has written to it. -/
theorem Effect.left_cases [Slices] (hs : Base s) (hn : NoUncover s a) (h : Effect s a s') {k : Key}
    (hk : isUserKey k) :
    cell s'.st.eng k = cell s.st.eng k ∧ SameWrites k s s' ∨
      (∃ id v w, a = .put id k v ∧ s.clients.get id = some w ∧ w.phase = .running ∧ w.begun ∧
        (∀ i, s'.clients.get i = if i = id then some { w with
          writes := if s.records k v then (k, v) :: w.writes else w.writes }
          else s.clients.get i) ∧
        WrittenTo (cell s.st.eng k) (w.putRequest k v) (cell s'.st.eng k)) ∨
      ∃ txn m, a = .resolve k txn ∧ txn ∈ s.handed ∧ s'.clients = s.clients ∧
        metaAt s.st.eng k = some m ∧ m.transactionID = txn.id ∧
        TurnedTo (cell s.st.eng k) m txn (cell s'.st.eng k) := by
  rcases h.cell_cases hs hk with h | ⟨id, v, w, ha, hw, hrun, hb, hget, hput⟩ |
    ⟨txn, m, rfl, hin, hclients, hm, hid, hres⟩
  · exact .inl h
  · exact .inr (.inl ⟨id, v, w, ha, hw, hrun, hb, hget, writtenTo_of_putTo hput⟩)
  · exact .inr (.inr ⟨txn, m, rfl, hin, hclients, hm, hid,
      turnedTo_of_resolved (fun ha => hn.kept hm hid ha) hres⟩)

/-- **Every step in time that uncovers nothing keeps the invariant.** -/
theorem Residue.step [Slices] (hs : Residue s) (hin : InTime s a) (hn : NoUncover s a)
    (h : Effect s a s') : Residue s' where
  toBase := hs.toBase.step hin h
  cells := fun k hk => by
    have hl := h.later hs.toBase
    have hok := hs.cells k hk
    rcases h.left_cases hs.toBase hn hk with ⟨heq, -⟩ | ⟨id, v, w, -, hw, -, hb, -, hput⟩ |
      ⟨txn, m, -, hin, -, hm, hid, hres⟩
    · exact heq ▸ hok.later hl hs.toTold
    · exact (hok.write hs.toTold hw hb v hput).later hl hs.toTold
    · exact (hok.turned hs.toBase (hs.handed txn hin) hm hid hres).later hl hs.toTold

/-! ### Committed versions -/

/-- The version at `t` is `v` and is older than the start of whoever holds the intent. -/
def Fixed (s : Sys) (c : Cell) (t : Timestamp) (v : Value) : Prop :=
  c.vers t = some v ∧ ∀ m, c.metaData = some m → m.transactionID ≠ [] →
    ∃ w, s.clients.get m.transactionID = some w ∧ t < w.txn.timestamp

section Fixed

variable {t : Timestamp} {v : Value}

lemma Fixed.later (hl : Later s s') (h : Fixed s c t v) : Fixed s' c t v := by
  refine ⟨h.1, fun m hm hne => ?_⟩
  obtain ⟨w, hw, hlt⟩ := h.2 m hm hne
  obtain ⟨w', hw', htxn, -⟩ := hl.old _ w hw
  exact ⟨w', hw', htxn ▸ hlt⟩

/-- A put writes at the start of its transaction, past every such version. -/
lemma Fixed.write (hs : Told s) (hok : CellLeft s c) (h : Fixed s c t v) {id key : Key}
    {w : Client} {val : Value} (hw : s.clients.get id = some w)
    (hput : WrittenTo c (w.putRequest key val) c') : Fixed s c' t v := by
  have hid : (w.putRequest key val).txn.id = id := (hs.clients id w hw).id_eq
  cases hput with
  | skip _ => exact h
  | write _ hold hown =>
    have hlt : t < w.txn.timestamp := by
      cases hok with
      | absent _ hv => simp [Fixed, hv t] at h
      | committed m hm hnil hq hv =>
        have hle : m.timestamp ≤ w.txn.timestamp := hold m hm hnil
        exact (hv t (by simp [h.1])).trans_lt (lt_of_le_of_ne hle (hq.2 id w hw).symm)
      | intent m w' r hm hw' _ _ _ _ _ =>
        have hne := ne_nil_of_isTxnID (hs.clients _ w' hw').isTxn
        obtain ⟨w₁, hw₁, hlt⟩ := h.2 m hm hne
        rw [hown m hm hne, hid, hw, Option.some.injEq] at hw₁
        exact hw₁ ▸ hlt
    refine ⟨?_, fun m hm _ => ?_⟩
    · exact (Cell.write_vers _ _ _ _).trans ((if_neg hlt.ne).trans h.1)
    · cases hm
      exact ⟨w, hid.symm ▸ hw, hlt⟩

/-- A resolution writes at or past the intent. -/
lemma Fixed.turned (hok : CellLeft s c) (h : Fixed s c t v) {m : MVCCMetadata}
    {txn : Transaction} (hm : c.metaData = some m) (hne : m.transactionID ≠ [])
    (hid : m.transactionID = txn.id) (hres : TurnedTo c m txn c') : Fixed s c' t v := by
  obtain ⟨w, hw, hlt⟩ := h.2 m hm hne
  obtain ⟨w', -, hw', -, -, hlo, -⟩ := hok.intent_of hm hne
  rw [hw, Option.some.injEq] at hw'
  subst hw'
  have hvers : m.timestamp < txn.timestamp → ∀ v' mt,
      ((c.setMeta mt).setVer txn.timestamp v').vers t = some v := fun hmove v' mt => by
    rw [Cell.setVer_vers, if_neg ((hlt.trans_le hlo).trans hmove).ne]
    exact h.1
  cases hres with
  | stay => exact h
  | push v' _ hmove _ =>
    refine ⟨hvers hmove _ _, fun m' hm' _ => ?_⟩
    cases hm'
    exact ⟨w, hid ▸ hw, hlt⟩
  | commit _ _ =>
    refine ⟨h.1, fun m' hm' hne' => ?_⟩
    cases hm'
    exact absurd rfl hne'
  | commitMove v' _ hmove _ =>
    refine ⟨hvers hmove _ _, fun m' hm' hne' => ?_⟩
    cases hm'
    exact absurd rfl hne'

lemma Fixed.step [Slices] (hs : Residue s) {k : Key} (hk : isUserKey k) (hn : NoUncover s a)
    (h : Fixed s (cell s.st.eng k) t v) (he : Effect s a s') :
    Fixed s' (cell s'.st.eng k) t v := by
  have hl := he.later hs.toBase
  have hok := hs.cells k hk
  rcases he.left_cases hs.toBase hn hk with ⟨heq, -⟩ | ⟨id, v', w, -, hw, -, -, -, hput⟩ |
    ⟨txn, m, -, hin, -, hm, hid, hres⟩
  · exact heq ▸ h.later hl
  · exact (h.write hs.toTold hok hw hput).later hl
  · have hne : m.transactionID ≠ [] := hid ▸ ne_nil_of_isTxnID (hs.handed txn hin).1
    exact (h.turned hok hm hne hid hres).later hl

end Fixed

/-- **Committed versions stay.** Along a run in which every commit is applied in time and no
abort uncovers an older version: once the metadata of a key carries no transaction, the
versions it has then are there for ever, with their values. -/
theorem committed_version_kept [Slices] (h0 : Init s₀)
    (hl : Along step (fun s a => InTime s a ∧ NoUncover s a) s₀ (l₁ ++ l₂))
    (h₁ : run step s₀ l₁ = some s₁) (h₂ : run step s₁ l₂ = some s₂) {k : Key} (hk : isUserKey k)
    {m : MVCCMetadata} (hm : metaAt s₁.st.eng k = some m) (hid : m.transactionID = [])
    {t : Timestamp} {v : Value} (hv : verAt s₁.st.eng k t = some v) :
    verAt s₂.st.eng k t = some v := by
  obtain ⟨hl₁, hl₂⟩ := along_append h₁ hl
  have hres : Residue s₁ := invariant (C := fun s a => InTime s a ∧ NoUncover s a)
    (fun x b x' hx hb hstep => hx.step hb.1 hb.2 (hx.effect hb.2 hstep)) h0.residue hl₁ h₁
  have hfixed : Fixed s₁ (cell s₁.st.eng k) t v := by
    refine ⟨hv, fun m' hm' hne => ?_⟩
    rw [cell_metaData, hm, Option.some.injEq] at hm'
    exact absurd (hm' ▸ hid) hne
  have hinv : Residue s₂ ∧ Fixed s₂ (cell s₂.st.eng k) t v := by
    refine invariant (P := fun x => Residue x ∧ Fixed x (cell x.st.eng k) t v)
      (C := fun s a => InTime s a ∧ NoUncover s a) (fun x b x' hx hb hstep => ?_)
      ⟨hres, hfixed⟩ hl₂ h₂
    have he := hx.1.effect hb.2 hstep
    exact ⟨hx.1.step hb.1 hb.2 he, hx.2.step hx.1 hk hb.2 he⟩
  exact hinv.2.1

/-! ### Runs -/

section Traces

attribute [local instance] Slices.twoItems

/-- A run without aborts uncovers nothing. -/
lemma along_noUncover {l : List Act} (hl : ∀ a ∈ l, a.aborts = none)
    (hin : Along step InTime s l) : Along step (fun s a => InTime s a ∧ NoUncover s a) s l :=
  (hin.and_forall hl).imp fun _ _ h => ⟨h.2, fun p hp => by simp [h.1] at hp⟩

theorem committed_version_kept_single : ∃ s₁ s₂, run step {} Schedule.single = some s₁ ∧
    run step s₁ [.start Schedule.t₂ 0 (Schedule.tick 30), .beginTxn Schedule.t₂,
      .put Schedule.t₂ Schedule.key { bytes := [8] }] = some s₂ ∧
    verAt s₂.st.eng Schedule.key (Schedule.tick 20) = some { bytes := [7] } := by
  obtain ⟨s₂, h⟩ := Option.isSome_iff_exists.mp (by decide +kernel :
    (run step {} (Schedule.single ++
    [.start Schedule.t₂ 0 (Schedule.tick 30), .beginTxn Schedule.t₂,
      .put Schedule.t₂ Schedule.key { bytes := [8] }])).isSome)
  obtain ⟨s₁, h₁, h₂⟩ := run_append.mp h
  have hcell : (run step {} Schedule.single).map (fun s => (metaAt s.st.eng Schedule.key,
      verAt s.st.eng Schedule.key (Schedule.tick 20))) =
      some (some ⟨[], Schedule.tick 20, false⟩, some { bytes := [7] }) := by decide +kernel
  rw [h₁, Option.map_some, Option.some.injEq, Prod.mk.injEq] at hcell
  exact ⟨s₁, s₂, h₁, h₂, committed_version_kept init_empty
    (along_noUncover (by decide) (by decide +kernel)) h₁ h₂ (by decide) hcell.1 rfl hcell.2⟩

/-- After the race the metadata says 20 while the version stands past 25: the intent of `t₃`,
which started at 22, is accepted, and a push by the same reader moves it onto that version. -/
theorem committed_version_overwritten :
    let moveOver : List Act := [.put Schedule.t₃ Schedule.key { bytes := [9] },
      .push (Schedule.conflict Schedule.key Schedule.t₃ Schedule.t₂ 25) (Schedule.tick 26),
      .resolve Schedule.key (Schedule.record Schedule.t₃ 22 .pending ⟨25, 1⟩)]
    (run step {} Schedule.pushRace).map (fun s => (metaAt s.st.eng Schedule.key,
      verAt s.st.eng Schedule.key ⟨25, 1⟩)) =
        some (some ⟨[], Schedule.tick 20, false⟩, some { bytes := [7] }) ∧
    (run step {} (Schedule.pushRace ++ moveOver)).map
      (fun s => verAt s.st.eng Schedule.key ⟨25, 1⟩) = some (some { bytes := [9] }) := by
  decide +kernel

end Traces

end Ancestor.Protocol
