import Ancestor.Kept

/-!
Resolutions of one intent that arrive in any order (`storage/engine/mvcc.go`,
`storage/replica.go`, `client/resolve_intent.go`).

The committing client, the pushers and the replicas all resolve intents, and none of them
knows what the others have sent. Up to the first final resolution the intent only moves
forward; from then on its metadata names no transaction, and the rest find nothing. But on badger
each place where the intent has been keeps its version, and an abort that finds no older version
leaves the intent: what is left depends on what has arrived before the end.
-/

namespace Ancestor

open M Hoare Steps

/-! ### What arrives and what is left -/

/-- The resolutions of one intent, a request each. -/
def deliver [Backend] (k : Key) : List Transaction → M Unit
  | [] => return
  | txn :: l => do
    mvccResolveWriteIntent [⟨k, txn⟩]
    deliver k l

/-- How a transaction has ended. -/
inductive Ending
  | aborted
  | committed (c : Timestamp)
  deriving DecidableEq, Repr

/-- The record says so. -/
def Ending.Final (o : Ending) (txn : Transaction) : Prop :=
  match o with
  | .aborted => txn.status = .aborted
  | .committed c => txn.status = .committed ∧ txn.timestamp = c

/-- A timestamp the transaction can have had before: it commits at its last one. -/
def Ending.Admits (o : Ending) (t : Timestamp) : Prop :=
  match o with
  | .aborted => True
  | .committed c => t ≤ c

instance (o : Ending) (txn : Transaction) : Decidable (o.Final txn) :=
  match o with
  | .aborted => inferInstanceAs (Decidable (_ = _))
  | .committed _ => inferInstanceAs (Decidable (_ ∧ _))

instance (o : Ending) (t : Timestamp) : Decidable (o.Admits t) :=
  match o with
  | .aborted => inferInstanceAs (Decidable True)
  | .committed c => inferInstanceAs (Decidable (t ≤ c))

/-- The cell of an intent `m` once its transaction has ended: the value stands at the timestamp
of the commit, or is gone and the newest of the older versions is the newest again. -/
inductive Cell.Ended (c : Cell) (m : MVCCMetadata) : Ending → Cell → Prop
  | committed (t : Timestamp) : Ended c m (.committed t)
      ⟨some ⟨[], t, m.deleted⟩, fun u =>
        if u = t then c.vers m.timestamp else if u = m.timestamp then none else c.vers u⟩
  | emptied (h : ∀ u ≠ m.timestamp, c.vers u = none) : Ended c m .aborted ⟨none, fun _ => none⟩
  | uncovered (t : Timestamp) (v : Value) (ht : t ≠ m.timestamp) (hv : c.vers t = some v)
    (hnewest : ∀ u ≠ m.timestamp, c.vers u ≠ none → u ≤ t) : Ended c m .aborted
      ⟨some ⟨[], t, decide (v.bytes.length = 0)⟩, fun u =>
        if u = m.timestamp then none else c.vers u⟩

/-! ### Deliveries -/

section Deliveries

variable {s s' : St} {c c' : Cell} {k : Key} {m : MVCCMetadata} {p : Timestamp} {o : Ending}
  {txn : Transaction} {l : List Transaction}

/-- A resolution of the intent `m`: a push, or the end. -/
def Ending.Resolves (o : Ending) (m : MVCCMetadata) (txn : Transaction) : Prop :=
  txn.id = m.transactionID ∧
    (txn.status = .pending ∧ o.Admits txn.timestamp ∨ o.Final txn)

instance (o : Ending) (m : MVCCMetadata) (txn : Transaction) : Decidable (o.Resolves m txn) :=
  inferInstanceAs (Decidable (_ ∧ _))

lemma deliver_cons [Backend] (h : resolveStep s ⟨k, txn⟩ = some s') :
    deliver k (txn :: l) s = deliver k l s' :=
  run_bind_ok (resolve_of_run (run_cons.mpr ⟨s', h, rfl⟩))

lemma Cell.Ended.bare (h : c.Ended m o c') {m' : MVCCMetadata} (hm : c'.metaData = some m') :
    m'.transactionID = [] := by
  cases h <;> cases hm <;> rfl

/-- Once it has ended, whatever arrives finds nothing. -/
lemma deliver_ended [Backend] (h : c.Ended m o (cell s.eng k)) (hne : m.transactionID ≠ [])
    (hl : ∀ txn ∈ l, o.Resolves m txn) : deliver k l s = .ok () s := by
  induction l with
  | nil => rfl
  | cons txn l ih =>
    have hstep : resolveStep s ⟨k, txn⟩ = some s := by
      refine resolveStep_unfound ?_
      rintro ⟨-, m', hm', hid⟩
      rw [h.bare hm', (hl txn List.mem_cons_self).1] at hid
      exact hne hid.symm
    rw [deliver_cons hstep]
    exact ih fun t ht => hl t (List.mem_cons_of_mem txn ht)

end Deliveries

/-! ### Deliveries on badger -/

section Shipped

variable {s : St} {k : Key} {m : MVCCMetadata} {v : Value} {o : Ending} {txn : Transaction}
  {l : List Transaction}

/-- The intent `m` with the value `v` is on its way or has ended, and its version stands where it
has been put. -/
structure Lingers (k : Key) (m : MVCCMetadata) (v : Value) (eng : Engine) : Prop where
  versioned : Versioned eng
  ver : verAt eng k m.timestamp = some v
  intent : ∀ m', metaAt eng k = some m' → m'.transactionID ≠ [] →
    m'.transactionID = m.transactionID ∧ m.timestamp ≤ m'.timestamp ∧
      verAt eng k m'.timestamp ≠ none

/-- A version of the key and the metadata that goes with it, above the intent. -/
lemma Lingers.put {eng : Engine} (h : Lingers k m v eng) {t : Timestamp} (ht : m.timestamp < t)
    (id : Key) (hid : id = [] ∨ id = m.transactionID) (deleted : Bool) (w : Value) :
    Lingers k m v ((eng.put (newMVCCKey k) (.metaData ⟨id, t, deleted⟩)).put
      (newMVCCTimeKey k t) (.value { value := some w })) := by
  refine ⟨(h.versioned.put_key k _).put_version k t w, ?_, fun m' hm' hne => ?_⟩
  · rw [verAt_put_time, verAt_put_meta, if_neg fun h => ht.ne h.2, h.ver]
  · rw [metaAt_put_time, metaAt_put_meta, if_pos rfl] at hm'
    cases hm'
    refine ⟨hid.resolve_left hne, ht.le, ?_⟩
    rw [verAt_put_time, if_pos ⟨rfl, rfl⟩]
    simp

/-- Metadata that names no transaction. -/
lemma Lingers.put_bare {eng : Engine} (h : Lingers k m v eng) {m' : MVCCMetadata}
    (hid : m'.transactionID = []) :
    Lingers k m v (eng.put (newMVCCKey k) (.metaData m')) := by
  refine ⟨h.versioned.put_key k _, by rw [verAt_put_meta, h.ver], fun m'' hm'' hne => ?_⟩
  rw [metaAt_put_meta, if_pos rfl] at hm''
  cases hm''
  exact absurd hid hne

variable [Slices]

attribute [local instance] Backend.badger

/-- **One resolution leaves the version of the intent.** -/
theorem Lingers.step (h : Lingers k m v s.eng) (hk : k ≠ []) (hne : m.transactionID ≠ [])
    (hid : txn.id = m.transactionID) :
    ∃ s', resolveStep s ⟨k, txn⟩ = some s' ∧ Lingers k m v s'.eng := by
  by_cases hf : ∃ m', metaAt s.eng k = some m' ∧ m'.transactionID = txn.id
  · obtain ⟨m', hm', hid'⟩ := hf
    obtain ⟨-, hle, hw⟩ := h.intent m' hm' (by rwa [hid', hid])
    obtain ⟨w, hw⟩ := Option.ne_none_iff_exists'.mp hw
    obtain ⟨s', hs', he⟩ := resolveStep_badger (i := ⟨k, txn⟩) h.versioned hk hm' hid' hw
    refine ⟨s', hs', ?_⟩
    rw [he]
    unfold resolved
    cases txn.status with
    | pending =>
      simp only
      split_ifs with hlt
      · exact h.put (hle.trans_lt hlt) txn.id (.inr hid) _ w
      · exact h
    | committed =>
      simp only
      split_ifs with hlt
      · exact h.put (hle.trans_lt hlt) [] (.inl rfl) _ w
      · exact h.put_bare rfl
    | aborted =>
      simp only
      split
      · next m'' hun => exact h.put_bare (uncovered_bare hun)
      · exact h
  · refine ⟨s, resolveStep_unfound ?_, h⟩
    rintro ⟨-, m', hm', hid'⟩
    exact hf ⟨m', hm', hid'⟩

/-- **Any number of resolutions leaves it.** -/
theorem Lingers.deliver (h : Lingers k m v s.eng) (hk : k ≠ []) (hne : m.transactionID ≠ [])
    (hl : ∀ txn ∈ l, txn.id = m.transactionID) :
    ∃ s', deliver k l s = .ok () s' ∧ Lingers k m v s'.eng := by
  induction l generalizing s with
  | nil => exact ⟨s, rfl, h⟩
  | cons txn l ih =>
    obtain ⟨s₁, hs₁, h₁⟩ := h.step hk hne (hl txn List.mem_cons_self)
    rw [deliver_cons hs₁]
    exact ih h₁ fun t ht => hl t (List.mem_cons_of_mem txn ht)

/-- A transaction that commits where its intent stands ends it as it should. -/
lemma deliver_in_place (h : Versioned s.eng) (hk : k ≠ []) (hm : metaAt s.eng k = some m)
    (hne : m.transactionID ≠ []) (hv : verAt s.eng k m.timestamp = some v)
    (hl : ∀ txn ∈ l, (Ending.committed m.timestamp).Resolves m txn)
    (hfinal : ∃ txn ∈ l, (Ending.committed m.timestamp).Final txn) :
    ∃ s', deliver k l s = .ok () s' ∧
      (cell s.eng k).Ended m (.committed m.timestamp) (cell s'.eng k) := by
  induction l generalizing s with
  | nil => simp at hfinal
  | cons txn l ih =>
    have hrest : ∀ t ∈ l, (Ending.committed m.timestamp).Resolves m t := fun t ht =>
      hl t (List.mem_cons_of_mem txn ht)
    obtain ⟨hid, hres⟩ := hl txn List.mem_cons_self
    obtain ⟨s₁, hs₁, he⟩ := resolveStep_badger (i := ⟨k, txn⟩) h hk hm hid.symm hv
    rw [deliver_cons hs₁]
    unfold resolved at he
    rcases hres with ⟨hst, hle⟩ | ⟨hst, hts⟩
    · -- a push to where the intent stands, or below
      have hfinal' : ∃ t ∈ l, (Ending.committed m.timestamp).Final t := by
        obtain ⟨t, ht, hfin⟩ := hfinal
        rcases List.mem_cons.mp ht with rfl | ht
        · exact absurd (hst.symm.trans hfin.1) (by simp)
        · exact ⟨t, ht, hfin⟩
      simp only [hst, if_neg (not_lt.mpr hle)] at he
      rw [← he] at h hm hv ⊢
      exact ih h hm hv hrest hfinal'
    · have hend : (cell s.eng k).Ended m (.committed m.timestamp) (cell s₁.eng k) := by
        simp only [hst, hts, lt_irrefl, if_false] at he
        have hcell : cell s₁.eng k = ⟨some ⟨[], m.timestamp, m.deleted⟩, fun u =>
            if u = m.timestamp then (cell s.eng k).vers m.timestamp
            else if u = m.timestamp then none else (cell s.eng k).vers u⟩ := by
          rw [cell, he, metaAt_put_meta, if_pos rfl]
          refine congrArg (Cell.mk _) (funext fun u => ?_)
          rw [verAt_put_meta]
          split_ifs with hu
          · rw [hu]
            rfl
          · rfl
        rw [hcell]
        exact .committed m.timestamp
      exact ⟨s₁, deliver_ended hend hne hrest, hend⟩

/-- **When the resolutions of an intent leave what they should**: for a transaction that commits
at the very timestamp of its intent, and then in every order; a version that has been moved or
taken back is still there. -/
theorem resolutions_end_iff (h : Arranged s.eng) (hk : k ≠ []) (hm : metaAt s.eng k = some m)
    (hne : m.transactionID ≠ []) (o : Ending) (hl : ∀ txn ∈ l, o.Resolves m txn)
    (hfinal : ∃ txn ∈ l, o.Final txn) :
    ∃ s', deliver k l s = .ok () s' ∧
      ((cell s.eng k).Ended m o (cell s'.eng k) ↔ o = .committed m.timestamp) := by
  obtain ⟨v, hv⟩ := Option.ne_none_iff_exists'.mp (h.newest k m hm).1
  have hlingers : Lingers k m v s.eng := by
    refine ⟨h.ok.versioned, hv, fun m' hm' _ => ?_⟩
    obtain rfl : m = m' := Option.some.inj (hm.symm.trans hm')
    exact ⟨rfl, le_rfl, by simp [hv]⟩
  obtain ⟨s', hs', h'⟩ := hlingers.deliver hk hne fun txn ht => (hl txn ht).1
  refine ⟨s', hs', fun hend => ?_, ?_⟩
  · -- the version is where it was, so there is no other place for it to be
    have hver : (cell s'.eng k).vers m.timestamp = some v := h'.ver
    generalize cell s'.eng k = c at hend hver
    cases hend with
    | committed t =>
      by_cases ht : m.timestamp = t
      · rw [ht]
      · simp [ht] at hver
    | emptied _ => cases hver
    | uncovered t w => simp at hver
  · rintro rfl
    obtain ⟨s₁, hs₁, hend⟩ := deliver_in_place h.ok.versioned hk hm hne hv hl hfinal
    rw [hs'] at hs₁
    cases hs₁
    exact hend

end Shipped

section Orders

attribute [local instance] Slices.twoItems Backend.badger

/-- A late push, and the commit at 3, where the intent stands. -/
theorem resolutions_end_iff_in_place :
    ∃ s', deliver [0x02, 0x61]
        [{ id := [0x01], timestamp := ⟨2, 0⟩ },
          { id := [0x01], status := .committed, timestamp := ⟨3, 0⟩ }] blocked = .ok () s' ∧
      (cell blocked.eng [0x02, 0x61]).Ended ⟨[0x01], ⟨3, 0⟩, false⟩ (.committed ⟨3, 0⟩)
        (cell s'.eng [0x02, 0x61]) := by
  obtain ⟨s', hs', hiff⟩ := resolutions_end_iff (m := ⟨[0x01], ⟨3, 0⟩, false⟩) (k := [0x02, 0x61])
    (l := [{ id := [0x01], timestamp := ⟨2, 0⟩ },
      { id := [0x01], status := .committed, timestamp := ⟨3, 0⟩ }])
    blocked_arranged (by decide) rfl (by decide) (.committed ⟨3, 0⟩) (by decide) (by decide)
  exact ⟨s', hs', hiff.mpr rfl⟩

/-- The versions at 3, 7 and 9 and the owner in the metadata after each of three deliveries: a
push to 7 and the commit at 9 in the two orders, and a push to 7 and the abort. -/
theorem order_of_resolutions_shows :
    (∃ s, deliver [0x02, 0x61] [{ id := [0x01], timestamp := ⟨7, 0⟩ },
        { id := [0x01], status := .committed, timestamp := ⟨9, 0⟩ }] blocked = .ok () s ∧
      verAt s.eng [0x02, 0x61] ⟨7, 0⟩ = some { bytes := [0x61] }) ∧
    (∃ s, deliver [0x02, 0x61] [{ id := [0x01], status := .committed, timestamp := ⟨9, 0⟩ },
        { id := [0x01], timestamp := ⟨7, 0⟩ }] blocked = .ok () s ∧
      verAt s.eng [0x02, 0x61] ⟨7, 0⟩ = none ∧
      verAt s.eng [0x02, 0x61] ⟨3, 0⟩ = some { bytes := [0x61] }) ∧
    ∃ s, deliver [0x02, 0x61] [{ id := [0x01], timestamp := ⟨7, 0⟩ },
        { id := [0x01], status := .aborted }] blocked = .ok () s ∧
      metaAt s.eng [0x02, 0x61] = some ⟨[], ⟨3, 0⟩, false⟩ ∧
      get s.eng { key := [0x02, 0x61], timestamp := ⟨5, 0⟩ } = .ok { bytes := [0x61] } :=
  ⟨⟨_, rfl, by decide +kernel⟩, ⟨_, rfl, by decide +kernel⟩, ⟨_, rfl, by decide +kernel⟩⟩

end Orders

end Ancestor
