import Ancestor.Delivery
import Ancestor.Reads

/-!
A transaction that is taken back (`storage/replica_command.go`, `storage/engine/mvcc.go`).

An abort is to remove the version of the intent and to rebuild the metadata from the newest
version below, so that what the transaction has put on the key, wherever its intent was pushed to
meanwhile, is taken back. On badger what the transaction has stored stays.
-/

namespace Ancestor

open M Hoare Steps

/-! ### Requests of one transaction on one key -/

/-- What a transaction and its pushers do to a key before the end. -/
inductive Touch
  | put (req : PutRequest)
  | push (txn : Transaction)
  deriving DecidableEq, Repr

/-- A put of `T` on `k`, or a resolution of its intent while it is pending. -/
def Touch.By (T : Transaction) (k : Key) : Touch → Prop
  | .put req => req.key = k ∧ req.txn.id = T.id ∧ req.txn.timestamp = T.timestamp ∧
      req.timestamp = T.timestamp
  | .push txn => txn.id = T.id ∧ txn.status = .pending

instance (T : Transaction) (k : Key) : (a : Touch) → Decidable (a.By T k)
  | .put _ => inferInstanceAs (Decidable (_ ∧ _ ∧ _ ∧ _))
  | .push _ => inferInstanceAs (Decidable (_ ∧ _))

/-- One request on `k`; a put that fails keeps the state, and a nil value that is dereferenced
stops the node. -/
def touch [Backend] (k : Key) (s : St) : Touch → Option St
  | .put req => some (stateAfter (put req) s)
  | .push txn => resolveStep s ⟨k, txn⟩

/-- The key is absent, or its newest version is committed, with metadata `o`. -/
inductive AtRest (eng : Engine) (k : Key) : Option MVCCMetadata → Prop
  | absent (hm : eng.get (newMVCCKey k) = none) (hv : ∀ t, verAt eng k t = none) :
    AtRest eng k none
  | committed (m : MVCCMetadata) (v : Value) (hm : eng.get (newMVCCKey k) = some (.metaData m))
    (hid : m.transactionID = []) (hv : verAt eng k m.timestamp = some v)
    (hdel : m.deleted = true ↔ v.bytes = []) (hmax : ∀ t, verAt eng k t ≠ none → t ≤ m.timestamp) :
    AtRest eng k (some m)

/-! ### What the transaction holds -/

section Steps

variable {eng₀ : Engine} {T : Transaction} {k : Key} {p : Timestamp} {s s' : St}
  {o : Option MVCCMetadata}

lemma AtRest.meta_eq (h : AtRest eng₀ k o) : metaAt eng₀ k = o := by
  cases h with
  | absent hm => simp [metaAt, hm]
  | committed m v hm => simp [metaAt, hm]

lemma AtRest.dataKey (h : AtRest eng₀ k o) : DataKey eng₀ k := fun e he => by
  cases h with
  | absent hm => simp [hm] at he
  | committed m v hm => exact ⟨m, by simpa [hm, eq_comm] using he⟩

/-- Metadata of a key at rest names no transaction. -/
lemma AtRest.bare (h : AtRest eng₀ k o) {m : MVCCMetadata} (hm : o = some m) :
    m.transactionID = [] := by
  cases h with
  | absent => cases hm
  | committed m' v _ hid =>
    cases hm
    exact hid

lemma atRest_neighbours : AtRest neighbours [97, 0] (some ⟨[], ⟨4, 0⟩, false⟩) := by
  refine .committed ⟨[], ⟨4, 0⟩, false⟩ { bytes := [51] } ?_ rfl ?_ (by simp) fun t ht => ?_
  · simp [neighbours, newMVCCKey_inj, newMVCCKey_ne_timeKey]
  · simp [neighbours, verAt, newMVCCTimeKey_ne_key]
  · by_contra hlt
    have hfour : t ≠ ⟨4, 0⟩ := (not_le.mp hlt).ne'
    exact ht (by simp [neighbours, verAt, newMVCCTimeKey_inj, newMVCCTimeKey_ne_key, hfour])

/-- The puts of a transaction at 6 whose intent is pushed to 9 between them: the second one is a
deletion, and it clears what the push has moved. -/
def pushedPuts : List Touch :=
  let txn : Transaction := { id := [1, 50], timestamp := ⟨6, 0⟩ }
  let put (bytes : Bytes) : Touch :=
    .put { key := [97, 0], timestamp := ⟨6, 0⟩, txn := txn, value := { bytes := bytes } }
  [put [52], .push { txn with timestamp := ⟨9, 0⟩ }, put [],
    .push { txn with timestamp := ⟨11, 0⟩ }, put []]

end Steps

/-! ### Taking back on badger -/

section Shipped

variable {T : Transaction} {k : Key} {s s' : St} {o : Option MVCCMetadata} {l : List Touch}

/-- The transaction stores nothing: it is older than what is committed, or all it does is delete
what is not there. -/
def Unstored (T : Transaction) (o : Option MVCCMetadata) (l : List Touch) : Prop :=
  (∃ m, o = some m ∧ T.timestamp < m.timestamp) ∨ ∀ req, .put req ∈ l → Skips req o

/-- The transaction has put something on the key, and its version is there. -/
def Stored (T : Transaction) (k : Key) (eng : Engine) : Prop :=
  ∃ v, Lingers k ⟨T.id, T.timestamp, false⟩ v eng

lemma stored_storeVersion {eng : Engine} (h : Versioned eng) {req : PutRequest}
    (hreq : (Touch.put req).By T k) : Stored T k (storeVersion eng req) := by
  obtain ⟨rfl, hid, htxn, -⟩ := hreq
  refine ⟨req.value, (h.put_key _ _).put_version _ _ _, ?_, fun m' hm' _ => ?_⟩
  · rw [verAt, ← htxn, storeVersion_get]
  · rw [metaAt_storeVersion] at hm'
    cases hm'
    refine ⟨hid, htxn.ge, ?_⟩
    rw [verAt, storeVersion_get]
    simp

variable [Slices]

attribute [local instance] Backend.badger

/-- **A put on a key at rest** stores its version, unless it is too old or deletes nothing. -/
lemma put_at_rest_badger (h₀ : Versioned s.eng) (hrest : AtRest s.eng k o) (hk : k ≠ [])
    {req : PutRequest} (hreq : (Touch.put req).By T k) :
    ((∃ m, o = some m ∧ T.timestamp < m.timestamp) ∨ Skips req o) ∧
        (stateAfter (put req) s).eng = s.eng ∨
      Stored T k (stateAfter (put req) s).eng := by
  have hstored := stored_storeVersion h₀ hreq
  obtain ⟨rfl, hid, htxn, hts⟩ := hreq
  have hput := put_eng hk hrest.dataKey
  rw [dropMoved_badger, hrest.meta_eq] at hput
  rcases hput with ⟨⟨m, hm, hold⟩, e, he⟩ | ⟨-, s₁, hs₁, ⟨hskip, he⟩ | ⟨-, he⟩⟩
  · rw [stateAfter_error he]
    refine .inl ⟨.inl ⟨m, hm, ?_⟩, rfl⟩
    rcases hold with ⟨-, hlt⟩ | ⟨hne, -⟩
    · rwa [hts] at hlt
    · exact absurd (hrest.bare hm) hne
  · rw [stateAfter_ok hs₁, he]
    exact .inl ⟨.inr hskip, rfl⟩
  · rw [stateAfter_ok hs₁, he]
    exact .inr hstored

/-- What is stored stays through the requests of the transaction. -/
lemma Stored.step (h : Stored T k s.eng) (hk : k ≠ []) (hne : T.id ≠ []) {a : Touch}
    (ha : a.By T k) (hs : touch k s a = some s') : Stored T k s'.eng := by
  obtain ⟨v, h⟩ := h
  cases a with
  | put req =>
    rw [touch, Option.some.injEq] at hs
    subst hs
    have hstored := stored_storeVersion h.versioned ha
    obtain ⟨rfl, -⟩ := ha
    by_cases hd : DataKey s.eng req.key
    · have hput := put_eng hk hd
      rw [dropMoved_badger] at hput
      rcases hput with ⟨-, e, he⟩ | ⟨-, s₁, hs₁, ⟨-, he⟩ | ⟨-, he⟩⟩
      · rw [stateAfter_error he]
        exact ⟨v, h⟩
      · rw [stateAfter_ok hs₁, he]
        exact ⟨v, h⟩
      · rw [stateAfter_ok hs₁, he]
        exact hstored
    · rcases put_unreadable (s := s) (fun hr => hd hr.2) with he | he <;>
        rw [stateAfter_error he] <;> exact ⟨v, h⟩
  | push txn =>
    obtain ⟨s₁, hs₁, h₁⟩ := h.step hk hne ha.1
    rw [touch, hs₁] at hs
    cases hs
    exact ⟨v, h₁⟩

lemma Stored.run (h : Stored T k s.eng) (hk : k ≠ []) (hne : T.id ≠ [])
    (hl : ∀ a ∈ l, a.By T k) (hs : run (touch k) s l = some s') : Stored T k s'.eng := by
  induction l generalizing s with
  | nil =>
    cases hs
    exact h
  | cons a l ih =>
    obtain ⟨t, ht, hrun⟩ := run_cons.mp hs
    exact ih (h.step hk hne (hl a List.mem_cons_self) ht) (fun b hb => hl b (.tail a hb)) hrun

/-- A push finds nothing on a key at rest. -/
lemma push_at_rest (hrest : AtRest s.eng k o) (hne : T.id ≠ []) {txn : Transaction}
    (hid : txn.id = T.id) : resolveStep s ⟨k, txn⟩ = some s := by
  refine resolveStep_unfound ?_
  rintro ⟨-, m, hm, hm'⟩
  rw [hrest.meta_eq] at hm
  exact hne (hid.symm.trans (hm'.symm.trans (hrest.bare hm)))

/-- **The requests of a transaction** leave the engine as it is, exactly if none of them has
something to store; else what is stored is there at the end. -/
lemma run_at_rest (h₀ : Versioned s.eng) (hrest : AtRest s.eng k o) (hk : k ≠ []) (hne : T.id ≠ [])
    (hl : ∀ a ∈ l, a.By T k) (hs : run (touch k) s l = some s') :
    Unstored T o l ∧ s'.eng = s.eng ∨ Stored T k s'.eng := by
  induction l generalizing s with
  | nil =>
    cases hs
    exact .inl ⟨.inr fun req h => by simp at h, rfl⟩
  | cons a l ih =>
    have ha := hl a List.mem_cons_self
    have hl' : ∀ b ∈ l, b.By T k := fun b hb => hl b (.tail a hb)
    obtain ⟨t, ht, hrun⟩ := run_cons.mp hs
    -- a request that does nothing leaves it to the others
    have hsame : t.eng = s.eng → (∀ req, a = .put req →
        (∃ m, o = some m ∧ T.timestamp < m.timestamp) ∨ Skips req o) →
        Unstored T o (a :: l) ∧ s'.eng = s.eng ∨ Stored T k s'.eng := by
      intro heq hreq
      rw [← heq] at h₀ hrest ⊢
      refine (ih h₀ hrest hl' hrun).imp_left fun ⟨hun, he⟩ => ⟨?_, he⟩
      rcases hun with hold | hskips
      · exact .inl hold
      · by_cases hold : ∃ m, o = some m ∧ T.timestamp < m.timestamp
        · exact .inl hold
        · refine .inr fun req hmem => ?_
          rcases List.mem_cons.mp hmem with heq | hmem
          · exact (hreq req heq.symm).resolve_left hold
          · exact hskips req hmem
    cases a with
    | put req =>
      rw [touch, Option.some.injEq] at ht
      subst ht
      rcases put_at_rest_badger h₀ hrest hk ha with ⟨hun, heq⟩ | hstored
      · exact hsame heq fun req' h => by cases h; exact hun
      · exact .inr (hstored.run hk hne hl' hrun)
    | push txn =>
      rw [touch, push_at_rest hrest hne ha.1] at ht
      cases ht
      exact hsame rfl fun req h => by cases h

/-- Nothing is stored where there is nothing to store. -/
lemma run_unstored (hrest : AtRest s.eng k o) (hne : T.id ≠ []) (hl : ∀ a ∈ l, a.By T k)
    (hun : k = [] ∨ Unstored T o l) (hs : run (touch k) s l = some s') : s'.eng = s.eng := by
  induction l generalizing s with
  | nil =>
    cases hs
    rfl
  | cons a l ih =>
    have ha := hl a List.mem_cons_self
    obtain ⟨t, ht, hrun⟩ := run_cons.mp hs
    have hun' : k = [] ∨ Unstored T o l := hun.imp_right fun h =>
      h.imp_right fun hskips req hmem => hskips req (.tail a hmem)
    suffices heq : t.eng = s.eng by
      rw [← heq] at hrest ⊢
      exact ih hrest (fun b hb => hl b (.tail a hb)) hun' hrun
    cases a with
    | push txn =>
      rw [touch, push_at_rest hrest hne ha.1] at ht
      cases ht
      rfl
    | put req =>
      rw [touch, Option.some.injEq] at ht
      subst ht
      obtain ⟨rfl, -, -, hts⟩ := ha
      by_cases hk : req.key = []
      · rcases put_unreadable (s := s) (fun hr => hr.1 hk) with he | he <;>
          rw [stateAfter_error he]
      · have hput := put_eng hk hrest.dataKey
        rw [hrest.meta_eq] at hput
        rcases hput with ⟨-, e, he⟩ | ⟨hfree, s₁, hs₁, ⟨-, he⟩ | ⟨hno, -⟩⟩
        · rw [stateAfter_error he]
        · rw [stateAfter_ok hs₁, he, dropMoved_badger]
        · rcases hun.resolve_left hk with ⟨m, hm, hlt⟩ | hskips
          · exact absurd ⟨m, hm, .inl ⟨hrest.bare hm, hts ▸ hlt⟩⟩ hfree
          · exact absurd (hskips req List.mem_cons_self) hno

/-- **When aborting a transaction restores the key**: exactly if the transaction has stored
nothing. -/
theorem abort_restores_iff (hok : EngineOk s.eng) (hrest : AtRest s.eng k o) (hne : T.id ≠ [])
    (hts : ∀ m, o = some m → T.timestamp ≠ m.timestamp) (hl : ∀ a ∈ l, a.By T k)
    (hs : run (touch k) s l = some s') {txn : Transaction} (hid : txn.id = T.id) :
    ∃ s'', mvccResolveWriteIntent [⟨k, { txn with status := .aborted }⟩] s' = .ok () s'' ∧
      (s''.eng = s.eng ↔ k = [] ∨ Unstored T o l) := by
  by_cases hun : k = [] ∨ Unstored T o l
  · have heq := run_unstored hrest hne hl hun hs
    refine ⟨s', resolve_of_run (run_cons.mpr ⟨s', ?_, rfl⟩), iff_of_true heq hun⟩
    rw [← heq] at hrest
    exact push_at_rest hrest hne hid
  · obtain ⟨hk, hun⟩ := not_or.mp hun
    have hstored : Stored T k s'.eng :=
      (run_at_rest hok.versioned hrest hk hne hl hs).resolve_left fun h => hun h.1
    obtain ⟨v, h'⟩ := hstored
    have hsame : ({ txn with status := .aborted } : Transaction).id = T.id := hid
    obtain ⟨s'', hs'', h''⟩ := h'.step hk hne hsame
    refine ⟨s'', resolve_of_run (run_cons.mpr ⟨s'', hs'', rfl⟩),
      iff_of_false (fun heq => ?_) (not_or.mpr ⟨hk, hun⟩)⟩
    -- the transaction is newer than all that was there
    have hv : verAt s.eng k T.timestamp = some v := heq ▸ h''.ver
    cases hrest with
    | absent _ hnone => simp [hnone] at hv
    | committed m w _ _ _ _ hmax =>
      have hle := hmax T.timestamp (by simp [hv])
      exact hun (.inl ⟨m, rfl, lt_of_le_of_ne hle (hts m rfl)⟩)

end Shipped

section Kept

attribute [local instance] Slices.twoItems Backend.badger

/-- A transaction at 3 whose put comes too late for the key. -/
theorem abort_restores_iff_old :
    ∃ s', run (touch [97, 0]) ⟨neighbours, {}⟩
        [.put { key := [97, 0], timestamp := ⟨3, 0⟩, txn := { id := [1, 50], timestamp := ⟨3, 0⟩ },
                value := { bytes := [52] } }] = some s' ∧
      ∃ s'', mvccResolveWriteIntent [⟨[97, 0], { id := [1, 50], status := .aborted }⟩] s' =
        .ok () s'' ∧ s''.eng = neighbours := by
  refine ⟨_, rfl, ?_⟩
  obtain ⟨s'', hs'', hiff⟩ := abort_restores_iff (T := { id := [1, 50], timestamp := ⟨3, 0⟩ })
    (s := ⟨neighbours, {}⟩) engineOk_neighbours
    atRest_neighbours (by decide) (by rintro m ⟨⟩; decide)
    (l := [.put { key := [97, 0], timestamp := ⟨3, 0⟩,
                  txn := { id := [1, 50], timestamp := ⟨3, 0⟩ }, value := { bytes := [52] } }])
    (by decide) rfl (show ({ id := [1, 50] } : Transaction).id = [1, 50] from rfl)
  exact ⟨s'', hs'', hiff.mpr (.inr (.inl ⟨_, rfl, by decide⟩))⟩

/-- The key was committed at 4. After the puts at 6, the pushes and the abort the versions at 6, 9
and 11 are there, and a read at 12 gets the deletion that has been taken back. -/
theorem abort_leaves_versions :
    ∃ s' s'', run (touch [97, 0]) ⟨neighbours, {}⟩ pushedPuts = some s' ∧
      mvccResolveWriteIntent [⟨[97, 0], { id := [1, 50], status := .aborted }⟩] s' = .ok () s'' ∧
      get neighbours { key := [97, 0], timestamp := ⟨12, 0⟩ } = .ok { bytes := [51] } ∧
      get s''.eng { key := [97, 0], timestamp := ⟨12, 0⟩ } = .ok {} ∧
      ∀ t : Int64, t = 6 ∨ t = 9 ∨ t = 11 →
        verAt neighbours [97, 0] ⟨t, 0⟩ = none ∧ verAt s''.eng [97, 0] ⟨t, 0⟩ ≠ none := by
  refine ⟨_, _, rfl, rfl, by decide +kernel, by decide +kernel, ?_⟩
  rintro t (rfl | rfl | rfl) <;> decide +kernel

end Kept

end Ancestor
