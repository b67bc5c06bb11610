import Ancestor.Iterator
import Ancestor.Lib.Steps

/-!
Calls of an iterator in any order (`client/iter.go`).

An iterator that has come to the end, or whose fetch has failed, has a nil scan key. `Next` looks
that key up, and the cache of the ranges takes an empty key for the end of all keys: the span to
look for ends before it starts, which is a panic. `Value` reads the key of a missing row for its
log line.
-/

namespace Ancestor.Client

open Hoare Steps

/-! ### What the surroundings promise -/

/-- The error is a panic of the client. -/
def Error.Panics (e : Error) : Prop := ∃ msg, e.cause = .panic msg

lemma not_panics_retries : ¬ (⟨.needRetry none, false⟩ : Error).Panics := by
  rintro ⟨msg, hmsg⟩
  cases hmsg

/-- A descriptor as the placement driver has them. -/
structure Proper (rd : RangeDescriptor) : Prop where
  start : rd.startKey ≠ []
  span : rd.startKey < rd.endKey
  replicas : rd.replicas ≠ []

lemma Proper.stop {rd : RangeDescriptor} (h : Proper rd) : rd.endKey ≠ [] :=
  fun hnil => List.not_lt_nil _ (hnil ▸ h.span)

/-- A lookup finds a range of the key, or there is none. -/
lemma RangeDescriptorCache.lookup_cases (rdc : RangeDescriptorCache)
    (h : ∀ rd ∈ rdc.tree, rd.startKey ≠ [] ∧ rd.endKey ≠ []) {key : Key} (hk : key ≠ []) :
    (∃ rd ∈ rdc.tree, rdc.lookup key = .ok rd ∧ rd.startKey ≤ key ∧ key < rd.endKey) ∨
      (rdc.lookup key = .error .notFound ∧
        ∀ rd ∈ rdc.tree, rd.startKey ≤ key → rd.endKey ≤ key) := by
  have hover : ∀ rd ∈ rdc.tree, overlap key (bytesNext key) rd = true ↔
      rd.startKey ≤ key ∧ key < rd.endKey := fun rd hrd => overlap_iff hk (h rd hrd).1 (h rd hrd).2
  rw [lookup, getOverlaps, newKey_of_lt hk (lt_bytesNext key)]
  simp only [bind, Except.bind, pure, Except.pure]
  cases hl : rdc.tree.filter (overlap key (bytesNext key)) with
  | nil =>
    refine .inr ⟨rfl, fun rd hrd hle => ?_⟩
    by_contra hlt
    exact List.filter_eq_nil_iff.mp hl rd hrd ((hover rd hrd).mpr ⟨hle, not_le.mp hlt⟩)
  | cons rd l =>
    have hmem : rd ∈ rdc.tree.filter (overlap key (bytesNext key)) := hl ▸ List.mem_cons_self
    obtain ⟨hmem, ho⟩ := List.mem_filter.mp hmem
    exact .inl ⟨rd, hmem, rfl, (hover rd hmem).mp ho⟩

namespace Reach

variable {W : Type} (r : Reach W) (D : RangeDescriptor → Prop)
  (A : Key → RangeDescriptor → List KeyValue → Prop)

/-- The cache has descriptors with `D` only. -/
def Holds (w : W) : Prop := ∀ rd ∈ (r.rangeCache w).tree, D rd

/-- A program that does not panic and keeps the cache as it should be. -/
def Calm {α : Type} (m : CM W α) (R : α → Prop) : Prop :=
  Triple (r.Holds D) m (fun a w => R a ∧ r.Holds D w) fun e w => ¬ e.Panics ∧ r.Holds D w

/-- What the surroundings promise: nothing panics, the placement driver gives out descriptors
with `D`, and `A` holds of what a node answers. Any request may fail, and others may change the
cache at any time. -/
structure Serves : Prop where
  get_set : ∀ rangeCache w, r.rangeCache (r.setRangeCache rangeCache w) = rangeCache
  proper : ∀ rd, D rd → Proper rd
  locate : ∀ key, r.Calm D (r.getRangeDescriptors key) D
  conn : ∀ id, r.Calm D (r.getNodeConn id) fun _ => True
  stop : r.Calm D r.isStop fun _ => True
  scan : ∀ s id rd, D rd → rd.startKey ≤ s → s < rd.endKey → r.Calm D (r.scan s id rd) (A s rd)

end Reach

section Promised

variable {W : Type} {r : Reach W} {D : RangeDescriptor → Prop}
  {A : Key → RangeDescriptor → List KeyValue → Prop} (h : r.Serves D A) {s : Key} (hs : s ≠ [])

include h in
lemma Reach.Serves.holds_set {rdc : RangeDescriptorCache} {w : W} :
    r.Holds D (r.setRangeCache rdc w) ↔ ∀ rd ∈ rdc.tree, D rd := by
  rw [Reach.Holds, h.get_set]

include h hs

lemma calm_getRangeDescFromCache : r.Calm D (r.getRangeDescFromCache s) fun rd =>
    (D rd.desc ∧ rd.desc.startKey ≤ s ∧ s < rd.desc.endKey) ∧
      rd.leaderIndex < rd.desc.replicas.length := by
  have hfound : ∀ {rdc : RangeDescriptorCache} {rd : RangeDescriptor}, (∀ rd ∈ rdc.tree, D rd) →
      rd ∈ rdc.tree → rd.startKey ≤ s ∧ s < rd.endKey →
      (D rd ∧ rd.startKey ≤ s ∧ s < rd.endKey) ∧ 0 < rd.replicas.length :=
    fun hD hmem hin => ⟨⟨hD _ hmem, hin⟩,
      List.length_pos_iff.mpr (h.proper _ (hD _ hmem)).replicas⟩
  intro w hw
  rw [Reach.getRangeDescFromCache, run_bind_get]
  have hspan : ∀ {rdc : RangeDescriptorCache}, (∀ rd ∈ rdc.tree, D rd) →
      ∀ rd ∈ rdc.tree, rd.startKey ≠ [] ∧ rd.endKey ≠ [] := fun hD rd hrd =>
    ⟨(h.proper rd (hD rd hrd)).start, (h.proper rd (hD rd hrd)).stop⟩
  rcases (r.rangeCache w).lookup_cases (hspan hw) hs with ⟨rd, hmem, hl, hin⟩ | ⟨hl, -⟩
  · rw [hl]
    exact ⟨hfound hw hmem hin, hw⟩
  rw [hl]
  refine (triple_traced (fun _ he => he) (h.locate s)).bind (fun rd w hw => ?_) w hw
  obtain ⟨hD, hw⟩ := hw
  have hrd := h.proper rd hD
  rw [run_bind_get, RangeDescriptorCache.add_of_lt _ _ hrd.start hrd.span]
  simp only [ofCache, pure_bind]
  have hall : ∀ x ∈ r.tree.insert rd (r.rangeCache w).tree, D x := fun x hx => by
    rcases r.tree.mem_insert.mp hx with rfl | hx
    · exact hD
    · exact hw x hx
  have hset := h.holds_set (w := w).mpr hall
  rcases RangeDescriptorCache.lookup_cases ⟨_⟩ (hspan hall) hs with ⟨x, hmem, hl, hin⟩ | ⟨hl, -⟩
  · rw [hl]
    exact ⟨hfound hall hmem hin, hset⟩
  · rw [hl]
    refine ⟨?_, hset⟩
    rintro ⟨msg, hmsg⟩
    cases hmsg

lemma Reach.Serves.supports : r.base.Supports s (r.Holds D)
    (fun rd => D rd ∧ rd.startKey ≤ s ∧ s < rd.endKey) fun e => ¬ e.Panics where
  cache := (calm_getRangeDescFromCache h hs).imp (fun _ hw => hw)
    (fun _ _ hw => ⟨⟨hw.1.1, .inl hw.1.2⟩, hw.2⟩) fun _ _ hw => hw
  clear w hw := h.holds_set.mpr fun rd hrd => hw rd (List.mem_of_mem_filter hrd)
  conn id := (h.conn id).imp (fun _ hw => hw) (fun _ _ hw => hw.2) fun _ _ hw => hw
  stop := h.stop.imp (fun _ hw => hw) (fun _ _ hw => hw.2) fun _ _ hw => hw
  replicas rd hrd := .inl (h.proper rd hrd.1).replicas
  trace _ he := he
  retries := not_panics_retries
  stopped := by rintro ⟨msg, hmsg⟩; cases hmsg

/-- A request that succeeds was answered by a range of the key. -/
lemma calm_request : r.Calm D (r.request s) fun v => ∃ p, v = some p ∧
    D p.1 ∧ s < p.1.endKey ∧ A s p.1 p.2 := by
  have hcall : ∀ id rd, (D rd ∧ rd.startKey ≤ s ∧ s < rd.endKey) → Triple (r.Holds D)
      (do let kv ← r.scan s id rd; return (rd, kv))
      (fun p w => (D p.1 ∧ s < p.1.endKey ∧ A s p.1 p.2) ∧ r.Holds D w)
      fun e w => ¬ e.Panics ∧ r.Holds D w := fun id rd hrd =>
    (h.scan s id rd hrd.1 hrd.2.1 hrd.2.2).bind fun kv => triple_pure fun w hw =>
      ⟨⟨hrd.1, hrd.2.2, hw.1⟩, hw.2⟩
  refine (triple_requestNode (h.supports hs) hcall).imp (fun _ hw => hw) ?_ fun _ _ hw => hw
  rintro v w ⟨p, rfl, hp, hw⟩
  exact ⟨⟨p, rfl, hp⟩, hw⟩

end Promised

/-! ### Calls -/

/-- `Key` of an iterator. -/
def Iter.getKey {W : Type} (it : Iter) : CM W Key :=
  match it.result with
  | some row =>
    if userPrefix.length ≤ row.key.length then return row.key.drop userPrefix.length
    else throw ⟨.panic "slice bounds out of range", false⟩
  | none => return []

/-- `Value` of an iterator. Without a row it reads the key of the missing row for its log. -/
def Iter.getValue {W : Type} (it : Iter) : CM W Bytes :=
  match it.result with
  | some row => return row.value.bytes
  | none => throw ⟨.panic "nil pointer dereference", false⟩

/-- The scan key stays, so that `Next` goes on from there. -/
def Iter.close (it : Iter) : Iter := { it with result := none }

inductive IterCall
  | next
  | valid
  | key
  | value
  | close
  deriving DecidableEq, Repr

section Calls

variable {W : Type} (r : Reach W) (fuel : ℕ)

def Reach.perform (it : Iter) : IterCall → CM W Iter
  | .next => r.next fuel it
  | .valid => return it
  | .key => do
    let _ ← it.getKey
    return it
  | .value => do
    let _ ← it.getValue
    return it
  | .close => return it.close

/-- A call; there is no state after a panic. -/
def Reach.step (p : Iter × W) (c : IterCall) : Option (Iter × W) :=
  match r.perform fuel p.1 c p.2 with
  | .ok it w => some (it, w)
  | .error _ _ => none

/-- The iterator has come to the end, or its fetch has failed. -/
def Iter.Exhausted (it : Iter) : Prop := it.result = none ∧ it.scanKey = []

/-- `Next` while there is a key to go on from, `Value` while there is a row. -/
def InOrder (p : Iter × W) : IterCall → Prop
  | .next => p.1.scanKey ≠ []
  | .value => p.1.valid = true
  | _ => True

instance (p : Iter × W) (c : IterCall) : Decidable (InOrder p c) := by
  cases c <;> unfold InOrder <;> infer_instance

/-- The rows of an answer are not before the key that was asked for. -/
def NotBefore (s : Key) (_ : RangeDescriptor) (kv : List KeyValue) : Prop := ∀ row ∈ kv, s ≤ row.key

end Calls

/-! ### One range -/

/-- A range over all keys of the users. -/
def userRange : RangeDescriptor := ⟨2, userPrefix, endPrefix, [⟨1, 0⟩]⟩

/-- One range on one node. The second part of a world tells which of the next scans fail. -/
def oneRange (rows : List KeyValue) : Reach (RangeDescriptorCache × List Bool) where
  rangeCache := Prod.fst
  setRangeCache rangeCache w := (rangeCache, w.2)
  getRangeDescriptors _ := return userRange
  getNodeConn _ := return
  isStop := return false
  scan s _ rd := fun w =>
    match w.2 with
    | true :: fates => .error ⟨.node .unmarshalData, true⟩ (w.1, fates)
    | fates => .ok ((within rows s rd.endKey).take 2) (w.1, fates.tail)

lemma serves_oneRange (rows : List KeyValue) {D : RangeDescriptor → Prop}
    {A : Key → RangeDescriptor → List KeyValue → Prop} (hD : ∀ rd, D rd → Proper rd)
    (hrange : D userRange) (hA : ∀ s rd, A s rd ((within rows s rd.endKey).take 2)) :
    (oneRange rows).Serves D A where
  get_set _ _ := rfl
  proper := hD
  locate _ := fun _ hw => ⟨hrange, hw⟩
  conn _ := fun _ hw => ⟨trivial, hw⟩
  stop := fun _ hw => ⟨trivial, hw⟩
  scan s id rd _ _ _ := by
    rintro ⟨rdc, fates⟩ hw
    match fates with
    | [] | false :: _ => exact ⟨hA s rd, hw⟩
    | true :: _ =>
      refine ⟨?_, hw⟩
      rintro ⟨msg, ⟨⟩⟩

/-- A row under the user's key `a`. -/
def rowA : KeyValue := ⟨userKey [97], { bytes := [1] }⟩

/-- After `Seek`: on the row, with the end of the range to go on from. -/
lemma seek_rowA : (oneRange [rowA]).seek 2 (return) [97] ({}, []) =
    .ok ⟨userKey [97], some rowA, endPrefix⟩ (⟨[userRange]⟩, []) := by
  rfl

lemma serves_notBefore (rows : List KeyValue) : (oneRange rows).Serves Proper NotBefore :=
  serves_oneRange rows (fun _ h => h) ⟨by decide, by decide, by decide⟩ fun s rd row hrow => by
    have hmem := List.mem_of_mem_take hrow
    rw [within, List.mem_filter, decide_eq_true_iff] at hmem
    exact hmem.2.1

/-! ### Calls that go through -/

section Safe

variable {W : Type} {r : Reach W} {fuel : ℕ}

/-- A row has a key, and the cache is as it should be. -/
def Sane (r : Reach W) (p : Iter × W) : Prop :=
  (∀ row, p.1.result = some row → row.key ≠ []) ∧ r.Holds Proper p.2

/-- What a call that goes through does. -/
lemma step_cases {p p' : Iter × W} {c : IterCall} (h : r.step fuel p c = some p') :
    (c = .next ∧ r.next fuel p.1 p.2 = .ok p'.1 p'.2) ∨
      (c ≠ .next ∧ (p' = p ∨ p' = (p.1.close, p.2))) := by
  obtain ⟨it, w⟩ := p
  cases c with
  | next =>
    rw [Reach.step, Reach.perform] at h
    cases hrun : r.next fuel it w with
    | error e w' => simp only [hrun] at h; cases h
    | ok it' w' =>
      simp only [hrun] at h
      cases h
      exact .inl ⟨rfl, rfl⟩
  | valid =>
    cases h
    exact .inr ⟨by decide, .inl rfl⟩
  | close =>
    cases h
    exact .inr ⟨by decide, .inr rfl⟩
  | key =>
    refine .inr ⟨by decide, .inl ?_⟩
    simp only [Reach.step, Reach.perform, Iter.getKey] at h
    cases hr : it.result with
    | none =>
      rw [hr] at h
      cases h
      rfl
    | some row =>
      rw [hr] at h
      simp only at h
      split_ifs at h <;> cases h
      rfl
  | value =>
    refine .inr ⟨by decide, .inl ?_⟩
    simp only [Reach.step, Reach.perform, Iter.getValue] at h
    cases hr : it.result with
    | none => rw [hr] at h; cases h
    | some row =>
      rw [hr] at h
      cases h
      rfl

/-- Without a scan key the lookup panics. -/
lemma next_nil (r : Reach W) (fuel : ℕ) {it : Iter} (hs : it.scanKey = []) (w : W) :
    ∃ e w', r.next (fuel + 1) it w = .error e w' := by
  have hlookup : (r.rangeCache w).lookup [] = .error (.panic [] [0]) := rfl
  have hcache : r.base.getRangeDescFromCache [] w =
      .error ⟨.panic "start key greater than or equal to end key", false⟩ w := by
    show r.getRangeDescFromCache [] w = _
    rw [Reach.getRangeDescFromCache, run_bind_get, hlookup]
    rfl
  rw [Reach.next, Reach.scanMutilRange, hs, if_neg (by decide), Reach.request,
    run_bind_error (traced_error (requestNode_unlocated hcache))]
  exact ⟨_, w, rfl⟩

/-- What holds of every row of the answers holds of the row that is found. -/
lemma Found.forall_row {C : KeyValue → Prop} {s : Key} {p : Option KeyValue × Key}
    (h : Found (fun _ _ kv => ∀ row ∈ kv, C row) s p) : ∀ row, p.1 = some row → C row := by
  induction h with
  | stop => rintro row ⟨⟩
  | skip _ _ ih => exact ih
  | last hA | more hA =>
    rintro row ⟨⟩
    exact hA _ List.mem_cons_self

variable (h : r.Serves Proper NotBefore)
include h

/-- With a scan key `Next` does not panic, whatever fails. -/
lemma next_sane (fuel : ℕ) {it : Iter} (hs : it.scanKey ≠ []) {w : W} (hw : r.Holds Proper w) :
    ∃ it' w', r.next fuel it w = .ok it' w' ∧ Sane r (it', w') := by
  have hreq : ∀ s : Key, s ≠ [] → endPrefix.isPrefixOf s = false → Triple (r.Holds Proper)
      (r.request s) (fun v w => ∃ p, v = some p ∧
        ((∀ row ∈ p.2, row.key ≠ []) ∧ p.1.endKey ≠ []) ∧ r.Holds Proper w)
      fun e w => ¬ e.Panics ∧ r.Holds Proper w := fun s hs _ => by
    refine (calm_request h hs).imp (fun _ hw => hw) ?_ fun _ _ hw => hw
    rintro v w ⟨⟨p, rfl, hp, -, hrows⟩, hw⟩
    refine ⟨p, rfl, ⟨fun row hrow hnil => ?_, hp.stop⟩, hw⟩
    have hle := hrows row hrow
    rw [hnil] at hle
    exact hs (le_antisymm hle (Bytes.nil_le s))
  have hloop := triple_scanMutilRange (A := fun _ _ kv => ∀ row ∈ kv, row.key ≠ [])
    (K := fun s => s ≠ []) (fun _ he => he) not_panics_retries hreq fuel hs
  cases hrun : r.scanMutilRange fuel it.scanKey w with
  | ok p w' =>
    obtain ⟨hfound, hw'⟩ := hloop.of_ok hw hrun
    exact ⟨_, w', Reach.next_of_ok hrun, fun row hrow => hfound.forall_row row hrow, hw'⟩
  | error e w' =>
    obtain ⟨he, hw'⟩ := hloop.of_error hw hrun
    refine ⟨_, w', Reach.next_of_error hrun fun msg hmsg => he ⟨msg, hmsg⟩, ?_, hw'⟩
    rintro row ⟨⟩

/-- **The calls that do not panic** are those in order. -/
lemma step_iff {p : Iter × W} (hp : Sane r p) (c : IterCall) :
    (∃ p', r.step (fuel + 1) p c = some p') ↔ InOrder p c := by
  obtain ⟨it, w⟩ := p
  cases c with
  | next =>
    by_cases hs : it.scanKey = []
    · obtain ⟨e, w', he⟩ := next_nil r fuel hs w
      simp [Reach.step, Reach.perform, he, InOrder, hs]
    · obtain ⟨it', w', hrun, -⟩ := next_sane h (fuel + 1) hs hp.2
      simp [Reach.step, Reach.perform, hrun, InOrder, hs]
  | valid => exact iff_of_true ⟨(it, w), rfl⟩ trivial
  | close => exact iff_of_true ⟨(it.close, w), rfl⟩ trivial
  | key =>
    refine iff_of_true ⟨(it, w), ?_⟩ trivial
    cases hr : it.result with
    | none => simp only [Reach.step, Reach.perform, Iter.getKey, hr]; rfl
    | some row =>
      have hlen : userPrefix.length ≤ row.key.length := List.length_pos_iff.mpr (hp.1 row hr)
      simp only [Reach.step, Reach.perform, Iter.getKey, hr, if_pos hlen]
      rfl
  | value =>
    cases hr : it.result with
    | none =>
      refine iff_of_false ?_ (by simp [InOrder, Iter.valid, hr])
      simp only [Reach.step, Reach.perform, Iter.getValue, hr]
      rintro ⟨p', ⟨⟩⟩
    | some row =>
      refine iff_of_true ⟨(it, w), ?_⟩ (by simp [InOrder, Iter.valid, hr])
      simp only [Reach.step, Reach.perform, Iter.getValue, hr]
      rfl

/-- A call that goes through leaves the iterator sane. -/
lemma step_sane {p p' : Iter × W} (hp : Sane r p) {c : IterCall}
    (hstep : r.step (fuel + 1) p c = some p') : Sane r p' := by
  have hin := (step_iff h hp c).mp ⟨p', hstep⟩
  rcases step_cases hstep with ⟨rfl, hrun⟩ | ⟨-, rfl | rfl⟩
  · obtain ⟨it', w', hrun', hsane⟩ := next_sane h (fuel + 1) hin hp.2
    rw [hrun'] at hrun
    cases hrun
    exact hsane
  · exact hp
  · refine ⟨?_, hp.2⟩
    rintro row ⟨⟩

/-- **The iterator is safe in order.** After `Seek` a sequence of calls goes through without a
panic, and the iterator stays invalid once it is exhausted, exactly when `Next` is only called
with a key to go on from and `Value` only with a row: `Next` after the end or after a failed fetch
panics, and so does `Value` on an iterator that is not valid. -/
theorem calls_safe_iff {doPutData : CM W Unit} {k : Key} {w w₁ : W} {it : Iter}
    (hput : ∀ w', doPutData w = .ok () w' → r.Holds Proper w')
    (hseek : r.seek (fuel + 1) doPutData k w = .ok it w₁) (calls : List IterCall) :
    ((∃ p, run (r.step (fuel + 1)) (it, w₁) calls = some p) ∧
      ∀ l l' p p', calls = l ++ l' → run (r.step (fuel + 1)) (it, w₁) l = some p →
        p.1.Exhausted → run (r.step (fuel + 1)) p l' = some p' → p'.1.valid = false) ↔
    Along (r.step (fuel + 1)) InOrder (it, w₁) calls := by
  have hsane : Sane r (it, w₁) := by
    obtain ⟨-, w', hw', hnext⟩ := Reach.seek_cases hseek
    have hne : (newIter k).scanKey ≠ [] := by simp [newIter_scanKey, userPrefix]
    obtain ⟨it', w'', hnext', hsane⟩ := next_sane h (fuel + 1) hne (hput w' hw')
    rw [hnext] at hnext'
    cases hnext'
    exact hsane
  have hrun : (∃ p, run (r.step (fuel + 1)) (it, w₁) calls = some p) ↔
      Along (r.step (fuel + 1)) InOrder (it, w₁) calls :=
    run_iff_along (fun p c p' hp hs => step_sane h hp hs) (fun p c hp => step_iff h hp c) hsane
  refine ⟨fun hall => hrun.mp hall.1, fun halong => ⟨hrun.mpr halong, ?_⟩⟩
  rintro l l' p p' rfl hl hex hl'
  have hrest := (along_append hl halong).2
  have hkeep : ∀ p c p', p.1.Exhausted → InOrder p c → r.step (fuel + 1) p c = some p' →
      p'.1.Exhausted := by
    intro p c p' hex hin hstep
    rcases step_cases hstep with ⟨rfl, -⟩ | ⟨-, rfl | rfl⟩
    · exact absurd hex.2 hin
    · exact hex
    · exact ⟨rfl, hex.2⟩
  rw [Iter.valid, (invariant hkeep hex hrest hl').1]
  rfl

end Safe

/-- The row is read, `Next` comes to the end, and the iterator is closed and asked again. -/
theorem calls_safe_one_row :
    ∃ p, run ((oneRange [rowA]).step 2) (⟨userKey [97], some rowA, endPrefix⟩, ⟨[userRange]⟩, [])
      [.valid, .key, .value, .next, .valid, .key, .close, .valid] = some p :=
  ((calls_safe_iff (serves_notBefore [rowA]) (fun w' hw' => by cases hw'; rintro rd ⟨⟩) seek_rowA
    _).mpr (by decide +kernel)).1

/-- No row at all: `Next` and `Value` panic. With a row `Next` panics after a scan that fails. -/
theorem calls_after_end :
    (∃ it w, (oneRange []).seek 2 (return) [97] ({}, []) = .ok it w ∧
      (oneRange []).step 2 (it, w) .next = none ∧ (oneRange []).step 2 (it, w) .value = none) ∧
    ∃ it w, (oneRange [rowA]).seek 2 (return) [97] ({}, [true]) = .ok it w ∧
      (oneRange [rowA]).step 2 (it, w) .next = none :=
  ⟨⟨_, _, rfl, rfl, rfl⟩, _, _, rfl, rfl⟩

end Ancestor.Client
