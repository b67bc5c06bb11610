import Ancestor.ResidueHistory

/-!
Isolation on badger. A version that a push or a commit has moved is found by the reads below
the metadata, so that they see what is not committed, or not yet.

A transaction that has read below the metadata of a key cannot write the key any more, and
that saves the updates as long as no abort uncovers a version. Snapshots are saved only when
no transaction that has written the key overlaps with the start of the reader.
-/

namespace Ancestor.Protocol

open Steps Versions

variable {s s' s₀ : Sys} {k : Key} {l : List Act} {h : Timestamp → Option Value} {a : Act}

attribute [local instance] Backend.badger

/-! ### Reads at or past the metadata -/

/-- No transaction is on its way to commit `k` where no intent stands. -/
lemma Holds.passed (hs : Told s) (hh : Holds s k) (ts : Timestamp)
    (hno : ∀ m, metaAt s.st.eng k = some m → m.transactionID = []) : Passed s k ts := by
  intro id w t r hw hwr _ _ hr hp
  obtain ⟨m, hm, hmid⟩ := hh id w r hw hwr hr hp
  exact absurd (hmid ▸ hno m hm) (ne_nil_of_isTxnID (hs.clients id w hw).isTxn)

/-- A read by another transaction than the one that holds the intent lies below the metadata,
or it gets what the history has. -/
lemma Hist.read_cases (hs : Residue s) (hv : Hist s₀ s k h) (hk : isUserKey k) {id : Key}
    {w : Client} {r : Option Value} (hr : (Ancestor.cell s.st.eng k).Reads id w.txn.timestamp r)
    (hown : ∀ m, metaAt s.st.eng k = some m → m.transactionID ≠ id) :
    ReadOk s h k w (r.getD {}).bytes ∨
      ∃ m, metaAt s.st.eng k = some m ∧ w.txn.timestamp < m.timestamp ∧
        Finds (verAt s.st.eng k) w.txn.timestamp r := by
  have hok := hs.cells k hk
  cases hr with
  | absent hm =>
    have hnone : ∀ u, h u = none := by
      cases hv.cell with
      | absent _ hh => exact hh
      | committed m v hm' _ _ _ _ _ _ => cases hm'.symm.trans hm
      | intent m w v hm' _ _ _ _ _ _ => cases hm'.symm.trans hm
    refine .inl ⟨⟨none, fun u _ => hnone u, rfl⟩, hv.holds.passed hs.toTold _ fun m hm' => ?_⟩
    cases hm'.symm.trans hm
  | ownDeleted m hm hid _ _ => exact absurd hid (hown m hm)
  | own m _ hm hid _ _ _ => exact absurd hid (hown m hm)
  | below m _ hm hlt _ hfinds => exact .inr ⟨m, hm, hlt, hfinds⟩
  | committedDeleted m hm hid hle hdel =>
    obtain ⟨v, hfinds, -, hbytes⟩ := hv.cell.finds_settled hok hs.toTold hm hid hle
    refine .inl ⟨⟨some v, hfinds, (hbytes hdel).symm⟩, hv.holds.passed hs.toTold _ fun m' hm' => ?_⟩
    exact Option.some.inj (hm'.symm.trans hm) ▸ hid
  | committed m _ hm hid hle _ hr' =>
    obtain ⟨v, hfinds, hvers, -⟩ := hv.cell.finds_settled hok hs.toTold hm hid hle
    refine .inl ⟨⟨some v, hfinds, by rw [hr'.unique hvers]⟩,
      hv.holds.passed hs.toTold _ fun m' hm' => ?_⟩
    exact Option.some.inj (hm'.symm.trans hm) ▸ hid

/-! ### No lost update -/

/-- The transaction has not written `k`, and it cannot any more: the metadata is past its
start. -/
def Blocked (s : Sys) (k : Key) (w : Client) : Prop :=
  w.wrote k = none ∧ ∃ m, metaAt s.st.eng k = some m ∧ w.txn.timestamp < m.timestamp ∧
    m.transactionID ≠ w.txn.id

/-- A put by another transaction, which has not written the key before, stores its version past
the metadata. -/
lemma Blocked.write (hs : Told s) (hv : Hist s₀ s k h) {id i : Key} {x w : Client} {v : Value}
    {c' : Cell} (hx : s.clients.get id = some x) (hfirst : x.wrote k = none)
    (hput : WrittenTo (cell s.st.eng k) (x.putRequest k v) c') (hw : s.clients.get i = some w)
    (hb : Blocked s k w) :
    (cell s.st.eng k).skips v ∧ c' = cell s.st.eng k ∨ i ≠ id ∧ ∃ m, c'.metaData = some m ∧
      w.txn.timestamp < m.timestamp ∧ m.transactionID ≠ w.txn.id := by
  obtain ⟨-, m, hm, hlt, hne⟩ := hb
  have hxid := (hs.clients id x hx).id_eq
  cases hput with
  | skip hskip => exact .inl ⟨hskip, rfl⟩
  | write hskip hold hown =>
    have hnil : m.transactionID = [] := by
      by_contra hmne
      have hid : m.transactionID = id := (hown m hm hmne).trans hxid
      simpa [hfirst] using hv.owned hs hx hm hid
    have hle : m.timestamp ≤ x.txn.timestamp := hold m hm hnil
    have hi : i ≠ id := by
      rintro rfl
      rw [hx, Option.some.injEq] at hw
      exact absurd hlt (not_lt.mpr (hw ▸ hle))
    refine .inr ⟨hi, _, rfl, hlt.trans_le hle, ?_⟩
    rw [(hs.clients i w hw).id_eq]
    exact fun heq => hi (heq.symm.trans hxid)

lemma Blocked.turned (hs : Residue s) (hk : isUserKey k) {i : Key} {w : Client}
    {m : MVCCMetadata} {txn : Transaction} {c' : Cell} (hh : HandedOk s txn)
    (hm : metaAt s.st.eng k = some m) (hid : m.transactionID = txn.id)
    (hres : TurnedTo (cell s.st.eng k) m txn c') (hw : s.clients.get i = some w)
    (hb : Blocked s k w) :
    ∃ m, c'.metaData = some m ∧ w.txn.timestamp < m.timestamp ∧ m.transactionID ≠ w.txn.id := by
  obtain ⟨-, m', hm', hlt, hne⟩ := hb
  rw [hm, Option.some.injEq] at hm'
  subst hm'
  have hcl := hs.clients i w hw
  have hnil : ([] : Key) ≠ w.txn.id := hcl.id_eq.symm ▸ (ne_nil_of_isTxnID hcl.isTxn).symm
  obtain ⟨htid, -, r', hr', -, -, hts⟩ := hh
  cases hres with
  | stay => exact ⟨m, hm, hlt, hne⟩
  | push v _ hmove _ => exact ⟨_, rfl, hlt.trans hmove, hid ▸ hne⟩
  | commit hc _ =>
    -- the intent is not past the record, which bears the timestamp of the commit
    obtain ⟨-, r, -, -, hr, -, hhi, -⟩ := (hs.cells k hk).intent_of hm
      (hid ▸ ne_nil_of_isTxnID htid)
    rw [hid, hr', Option.some.injEq] at hr
    exact ⟨_, rfl, hlt.trans_le (hts hc ▸ hr ▸ hhi), hnil⟩
  | commitMove v _ hmove _ => exact ⟨_, rfl, hlt.trans hmove, hnil⟩

/-- **Who is blocked stays blocked**, when every transaction writes the key once. -/
lemma Blocked.step [Slices] (hs : Residue s) (hv : Hist s₀ s k h) (hk : isUserKey k)
    (hn : NoUncover s a) (hrw : ReadThenWrite k s a) (he : Effect s a s') {i : Key}
    {w w' : Client} (hw : s.clients.get i = some w) (hw' : s'.clients.get i = some w')
    (htxn : w'.txn = w.txn) (hb : Blocked s k w) : Blocked s' k w' := by
  rw [Blocked, htxn]
  rcases he.left_cases hs.toBase hn hk with ⟨heq, hsame⟩ | ⟨id, v, x, ha, hx, -, -, hget, hput⟩ |
    ⟨txn, m, -, hin, hclients, hm, hid, hres⟩
  · obtain ⟨m, hm, hrest⟩ := hb.2
    have hmeta : metaAt s'.st.eng k = metaAt s.st.eng k := congrArg Cell.metaData heq
    exact ⟨(hsame i w w' hw hw').trans hb.1, m, hmeta.trans hm, hrest⟩
  · have hfirst := (hrw.1 (id, k, v) (ha ▸ rfl) rfl x hx).1
    rw [hget] at hw'
    rcases hb.write hs.toTold hv hx hfirst hput hw with ⟨hskip, heq⟩ | ⟨hi, hrest⟩
    · obtain ⟨m, hm, hrest⟩ := hb.2
      have hmeta : metaAt s'.st.eng k = metaAt s.st.eng k := congrArg Cell.metaData heq
      refine ⟨?_, m, hmeta.trans hm, hrest⟩
      by_cases hi : i = id
      · rw [if_pos hi, Option.some.injEq] at hw'
        rw [← hw', Sys.records, hskip]
        exact hfirst
      · rw [if_neg hi, hw, Option.some.injEq] at hw'
        exact hw' ▸ hb.1
    · rw [if_neg hi, hw, Option.some.injEq] at hw'
      exact ⟨hw' ▸ hb.1, hrest⟩
  · rw [hclients, hw, Option.some.injEq] at hw'
    exact ⟨hw' ▸ hb.1, hb.turned hs hk (hs.handed txn hin) hm hid hres hw⟩

/-- Every read of `k` got what the history has, or its transaction cannot write `k`. -/
def SafeReads (s : Sys) (k : Key) (h : Timestamp → Option Value) : Prop :=
  Seen s k fun w b => ReadOk s h k w b ∨ Blocked s k w

/-- **No update is lost on badger**, along a run in which every commit is applied in time, no
abort uncovers an older version and no put of `k` is the deletion of nothing: the transactions
that read `k` and then write it and commit form a chain, in which the first has read the initial
value and each other one what the one before it has written. -/
theorem updates_chained [Slices] (hi : Init s₀) (hk : isUserKey k)
    (hl : Along step (fun s a => ReadThenWrite k s a ∧ Records k s a ∧ InTime s a ∧
      NoUncover s a) s₀ l) (hrun : run step s₀ l = some s) :
    Chained s k (readAt s₀.st.eng k s₀.clock) (s.writers k) := by
  obtain ⟨hs, hd, h, hv, hseen⟩ := invariant
    (P := fun x => Residue x ∧ Disciplined x k ∧ ∃ h, Hist s₀ x k h ∧ SafeReads x k h)
    (C := fun s a => ReadThenWrite k s a ∧ Records k s a ∧ InTime s a ∧ NoUncover s a)
    (fun x a x' hx hca hstep => by
      obtain ⟨hs, hd, h, hv, hseen⟩ := hx
      obtain ⟨hrw, -, hin, hn⟩ := hca
      have he := hs.effect hn hstep
      obtain ⟨h', hv', hkeep⟩ := hv.step hs hk hin hn he
      refine ⟨hs.step hin hn he, hd.step (fun _ _ _ => hv.owned hs.toTold) hrw he, h', hv',
        hseen.step he (fun i w w' b hw hw' htxn _ hq => ?_) fun i w r ha hw _ _ hr => ?_⟩
      · exact hq.imp (hkeep i w w' b hw htxn) (Blocked.step hs hv hk hn hrw he hw hw' htxn)
      · refine ⟨fun ⟨m, hm, hid⟩ => hv.owned hs.toTold hw hm hid, fun hown => ?_⟩
        refine (hv.read_cases hs hk hr hown).imp_right fun ⟨m, hm, hlt, _⟩ => ⟨?_, m, hm, hlt, ?_⟩
        · exact hrw.2 (i, k) (ha ▸ rfl) rfl w hw
        · rw [(hs.clients i w hw).id_eq]
          exact hown m hm)
    ⟨hi.residue, fun id w hw => by simp [hi.noClient] at hw, _, hi.hist hk,
      fun id w x hw => by simp [hi.noClient] at hw⟩ hl hrun
  refine chained_suffix hi hk hs.toTold hv.toLedger hd (fun id w hw hwr x hx hxk => ?_) _ [] _ rfl
    (Or.inl ⟨rfl, rfl⟩)
  rcases (hseen id w x hw hx hxk).2 ((hd id w hw).2 x hx hxk) with hread | hblocked
  · exact hread.1
  · simp [hblocked.1] at hwr

namespace Schedule

/-- Two transactions that read and write the key, one after the other. -/
def inTurn : List Act :=
  [.start t₁ 0 (tick 10), .beginTxn t₁, .get t₁ key, .put t₁ key { bytes := [7] },
    .commit t₁ (tick 20), .endTxn t₁, .resolve key (record t₁ 10 .committed (tick 20)),
    .start t₂ 0 (tick 25), .beginTxn t₂, .get t₂ key, .put t₂ key { bytes := [8] },
    .commit t₂ (tick 30), .endTxn t₂]

/-- The transaction `id` stands in the way of a put of `k` by `pusher`. -/
def writeConflict (k id pusher : Key) (start : Int64) : WriteIntentError :=
  newWriteIntentError (record pusher start .pending (tick start)) .pushAbort id k

/-- `t₃` has committed the key. The reader `t₂` pushes the intent of `t₁` past its start, reads
the version that stays below, and aborts `t₁` to write the key itself. -/
def dirtyUpdate : List Act :=
  [.start t₃ 0 (tick 2), .beginTxn t₃, .get t₃ key, .put t₃ key { bytes := [3] },
    .commit t₃ (tick 5), .endTxn t₃, .resolve key (record t₃ 2 .committed (tick 5)),
    .start t₁ 0 (tick 10), .beginTxn t₁, .get t₁ key, .put t₁ key { bytes := [7] },
    .start t₂ 0 (tick 25), .beginTxn t₂, .get t₂ key, .push (conflict key t₁ t₂ 25) (tick 26),
    .resolve key (record t₁ 10 .pending ⟨25, 1⟩), .get t₂ key, .put t₂ key { bytes := [8] },
    .push (writeConflict key t₁ t₂ 25) (tick 27), .resolve key (record t₁ 10 .aborted ⟨25, 1⟩),
    .put t₂ key { bytes := [8] }, .commit t₂ (tick 30), .endTxn t₂,
    .resolve key (record t₂ 25 .committed (tick 30))]

end Schedule

section Traces

attribute [local instance] Slices.twoItems

theorem updates_chained_inTurn : ∃ s, run step {} Schedule.inTurn = some s ∧
    s.writers Schedule.key = [Schedule.t₁, Schedule.t₂] ∧
    Chained s Schedule.key [] [Schedule.t₁, Schedule.t₂] := by
  obtain ⟨s, hs, hwriters⟩ := Option.map_eq_some_iff.mp
    (by decide +kernel : (run step {} Schedule.inTurn).map (fun s => s.writers Schedule.key) =
      some [Schedule.t₁, Schedule.t₂])
  have hdisc : Along step (fun s a => ReadThenWrite Schedule.key s a ∧ Records Schedule.key s a) {}
      Schedule.inTurn := by decide +kernel
  have hchain := updates_chained init_empty (k := Schedule.key) (by decide)
    ((hdisc.and (along_noUncover (by decide) (by decide +kernel))).imp fun _ _ h =>
      ⟨h.1.1, h.1.2, h.2⟩) hs
  rw [hwriters] at hchain
  exact ⟨s, hs, hwriters, hchain⟩

/-- Every commit is in time, and `t₂` has read what nobody has committed. -/
theorem dirty_update :
    Along step (fun s a => ReadThenWrite Schedule.key s a ∧ Records Schedule.key s a ∧
      InTime s a) {} Schedule.dirtyUpdate ∧
    ∃ s, run step {} Schedule.dirtyUpdate = some s ∧
      s.writers Schedule.key = [Schedule.t₃, Schedule.t₂] ∧
      ¬ Chained s Schedule.key (readAt ({} : Sys).st.eng Schedule.key .zero)
        (s.writers Schedule.key) := by
  obtain ⟨s, hs, h⟩ := Option.map_eq_some_iff.mp
    (by decide +kernel : (run step {} Schedule.dirtyUpdate).map
      (fun s => decide (s.writers Schedule.key = [Schedule.t₃, Schedule.t₂] ∧
        ¬ Chained s Schedule.key (readAt ({} : Sys).st.eng Schedule.key .zero)
          (s.writers Schedule.key))) = some true)
  exact ⟨by decide +kernel, s, hs, of_decide_eq_true h⟩

end Traces

/-! ### Snapshot reads -/

/-- A key is read when every other transaction that has written it and has started by the start
of the reader has committed by then, or holds an intent that stops the read. -/
def NoOverlap (s : Sys) (a : Act) : Prop :=
  ∀ p ∈ a.gets, ∀ w ∈ s.clients.get p.1, ∀ e ∈ s.clients.entries, e.1 ≠ p.1 →
    (e.2.wrote p.2).isSome → e.2.txn.timestamp ≤ w.txn.timestamp →
      (∃ u ∈ e.2.phase.committedAt, u ≤ w.txn.timestamp) ∨
        ∃ m ∈ metaAt s.st.eng p.2, m.transactionID = e.1 ∧ m.timestamp ≤ w.txn.timestamp

instance (s : Sys) (a : Act) : Decidable (NoOverlap s a) :=
  inferInstanceAs (Decidable (∀ p ∈ a.gets, _))

/-- Every read of `k` by a transaction that has not written it got what the history has. -/
def CleanReads (s : Sys) (k : Key) (h : Timestamp → Option Value) : Prop :=
  Seen s k fun w b => (w.wrote k).isSome ∨ ReadOk s h k w b

/-- Where no transaction overlaps, a read gets what the history has. -/
lemma Hist.read_clean (hs : Residue s) (hv : Hist s₀ s k h) (hk : isUserKey k) {id : Key}
    {w : Client} {r : Option Value} (hover : NoOverlap s (.get id k))
    (hw : s.clients.get id = some w) (hno : ¬ (w.wrote k).isSome)
    (hr : (Ancestor.cell s.st.eng k).Reads id w.txn.timestamp r)
    (hown : ∀ m, metaAt s.st.eng k = some m → m.transactionID ≠ id) :
    ReadOk s h k w (r.getD {}).bytes := by
  rcases hv.read_cases hs hk hr hown with hread | ⟨m, hm, hlt, hfinds⟩
  · exact hread
  -- an intent in the way would have stopped the read
  have hcommitted : ∀ i x, s.clients.get i = some x → (x.wrote k).isSome →
      x.txn.timestamp ≤ w.txn.timestamp → ∃ u ≤ w.txn.timestamp, x.phase = .ended true u :=
    fun i x hx hwr hle => by
      have hi : i ≠ id := by
        rintro rfl
        rw [hw, Option.some.injEq] at hx
        exact hno (hx ▸ hwr)
      rcases hover (id, k) rfl w hw (i, x) ((OrdMap.mem_entries_iff _).mpr hx) hi hwr hle with
        ⟨u, hu, hle'⟩ | ⟨m', hm', -, hle'⟩
      · exact ⟨u, hle', Phase.committedAt_eq.mp hu⟩
      · rw [Option.mem_def, hm, Option.some.injEq] at hm'
        exact absurd hlt (not_lt.mpr (hm' ▸ hle'))
  refine ⟨⟨r, hv.cell.finds_below hs.toTold (hs.cells k hk) hm hlt hv.committed hcommitted hfinds,
    rfl⟩, fun i x t r' hx hwr hp hle _ _ => ?_⟩
  have hstart := ((hs.clients i x hx).drawn t (by rw [hp]; rfl)).2.2.1
  obtain ⟨u, -, hended⟩ := hcommitted i x hx hwr (hstart.le.trans hle)
  rw [hp] at hended
  cases hended

/-- **Snapshot reads are stable and atomic on badger**, along a run in which every commit is
applied in time, no abort uncovers an older version and no transaction that has written a key
overlaps with the start of one that reads it. -/
theorem snapshot_reads_apart [Slices] (hi : Init s₀)
    (hl : Along step (fun s a => InTime s a ∧ NoUncover s a ∧ NoOverlap s a) s₀ l)
    (hrun : run step s₀ l = some s) {id : Key} {r : Client} (hr : s.clients.get id = some r)
    (hwrites : r.writes = []) : Stable r ∧ Atomic s₀ s r := by
  obtain ⟨hs, hu, hhist⟩ := invariant
    (P := fun x => Residue x ∧ UserReads x ∧ ∀ k, isUserKey k → ∃ h, Hist s₀ x k h ∧
      CleanReads x k h)
    (C := fun s a => InTime s a ∧ NoUncover s a ∧ NoOverlap s a)
    (fun x a x' hx hca hstep => by
      obtain ⟨hs, hu, hhist⟩ := hx
      obtain ⟨hin, hn, hover⟩ := hca
      have he := hs.effect hn hstep
      refine ⟨hs.step hin hn he, hu.step he, fun k hk => ?_⟩
      obtain ⟨h, hv, hseen⟩ := hhist k hk
      obtain ⟨h', hv', hkeep⟩ := hv.step hs hk hin hn he
      refine ⟨h', hv', hseen.step he (fun i w w' b hw _ htxn hlog hq => ?_)
        fun i w r ha hw _ _ hr => ?_⟩
      · exact hq.imp hlog.wrote_isSome (hkeep i w w' b hw htxn)
      · refine ⟨fun ⟨m, hm, hid⟩ => hv.owned hs.toTold hw hm hid, fun hown => ?_⟩
        by_cases hwr : (w.wrote k).isSome
        · exact .inl hwr
        · exact .inr (hv.read_clean hs hk (ha ▸ hover) hw hwr hr hown))
    ⟨hi.residue, fun id w hw => by simp [hi.noClient] at hw, fun k hk => ⟨_, hi.hist hk,
      fun id w x hw => by simp [hi.noClient] at hw⟩⟩ hl hrun
  refine stable_atomic hi hs.toTold hr (hu id r hr) fun k hk => ?_
  obtain ⟨h, hv, hseen⟩ := hhist k hk
  have hno : ¬ (r.wrote k).isSome := by simp [Client.wrote, hwrites]
  refine ⟨h, hv.toLedger, fun x hx hxk => ?_⟩
  obtain ⟨hown, hok⟩ := hseen id r x hr hx hxk
  rcases hok (Bool.eq_false_iff.mpr fun ho => hno (hown ho)) with hwr | hread
  · exact absurd hwr hno
  · exact hread.1

namespace Schedule

def key₂ : Key := [2, 98]

/-- `t₁` writes two keys and commits; the reader `t₂` starts before it and reads one of them
then, the reader `t₃` starts after it and reads both. -/
def wholeRead : List Act :=
  [.start t₂ 0 (tick 5), .get t₂ key, .start t₁ 0 (tick 10), .beginTxn t₁,
    .put t₁ key { bytes := [7] }, .put t₁ key₂ { bytes := [8] }, .commit t₁ (tick 20), .endTxn t₁,
    .resolve key (record t₁ 10 .committed (tick 20)), .start t₃ 0 (tick 25), .get t₃ key₂,
    .resolve key₂ (record t₁ 10 .committed (tick 20)), .get t₃ key, .get t₃ key₂, .get t₂ key]

/-- `t₁` starts before the reader `t₂` and commits after its start. -/
def tornRead : List Act :=
  [.start t₁ 0 (tick 10), .beginTxn t₁, .start t₂ 0 (tick 15), .get t₂ key,
    .put t₁ key { bytes := [7] }, .commit t₁ (tick 20), .endTxn t₁,
    .resolve key (record t₁ 10 .committed (tick 20)), .get t₂ key]

end Schedule

section Traces

attribute [local instance] Slices.twoItems

theorem snapshot_reads_apart_wholeRead : ∃ s r, run step {} Schedule.wholeRead = some s ∧
    s.clients.get Schedule.t₃ = some r ∧ r.reads.length = 2 ∧ Stable r ∧ Atomic {} s r := by
  obtain ⟨s, hs, h⟩ := Option.map_eq_some_iff.mp
    (by decide +kernel : (run step {} Schedule.wholeRead).map (fun s =>
      (s.clients.get Schedule.t₃).map fun r => (r.reads.length, r.writes)) = some (some (2, [])))
  obtain ⟨r, hr, h⟩ := Option.map_eq_some_iff.mp h
  simp only [Prod.mk.injEq] at h
  have hover : Along step NoOverlap {} Schedule.wholeRead := by decide +kernel
  exact ⟨s, r, hs, hr, h.1, snapshot_reads_apart init_empty
    (((along_noUncover (by decide) (by decide +kernel)).and hover).imp fun _ _ h =>
      ⟨h.1.1, h.1.2, h.2⟩) hs hr h.2⟩

/-- The reader finds the key empty, and then the version that `t₁` has left at its start. -/
theorem snapshot_torn : Along step InTime {} Schedule.tornRead ∧
    (∀ a ∈ Schedule.tornRead, a.aborts = none) ∧
    ∃ s r, run step {} Schedule.tornRead = some s ∧ s.clients.get Schedule.t₂ = some r ∧
      r.writes = [] ∧ ¬ Stable r := by
  obtain ⟨s, hs, h⟩ := Option.map_eq_some_iff.mp
    (by decide +kernel : (run step {} Schedule.tornRead).map (fun s =>
      (s.clients.get Schedule.t₂).map fun r => decide (r.writes = [] ∧ ¬ Stable r)) =
        some (some true))
  obtain ⟨r, hr, h⟩ := Option.map_eq_some_iff.mp h
  exact ⟨by decide +kernel, by decide, s, r, hs, hr, of_decide_eq_true h⟩

end Traces

end Ancestor.Protocol
