import Ancestor.Badger
import Ancestor.Lib.Hoare
import Ancestor.LogKeys

/-!
Compaction of a raft log when a step of it fails (`storage/replica_raftstorage.go`).

`compact` collects its deletions and the new offset in a batch, which the engine takes on when
the batch commits; until then a failure leaves the engine as it is. The offset in memory is
assigned before the offset is put into the batch. The batch holds on to the keys that the
iteration hands it, and deletes what they have become when it commits.
-/

namespace Ancestor.Compaction

open Hoare Badger

/-! ### The steps -/

/-- The call that fails: the `n`-th `Clear` of the iteration, the iteration itself, the
marshalling of the offset, the `Put` of the offset, or the `Commit` of the batch. -/
inductive Fault
  | clear (n : ℕ)
  | iterate
  | marshal
  | put
  | commit
  deriving DecidableEq, Repr

inductive CompactErr
  | refused (e : RaftErr)
  | failed (f : Fault)
  deriving DecidableEq, Repr

/-- A replica and the engine of its store. -/
structure LogState where
  replica : RaftReplica
  eng : Engine

abbrev CompactM := EStateM CompactErr LogState

abbrev Batch := Txn MVCCKey Entry

section Steps

variable (fault : Option Fault)

/-- A call that may fail. -/
def attempt (f : Fault) : CompactM Unit := if fault = some f then throw (.failed f) else pure ()

/-- The iteration of the batch, which clears every entry it meets, from the `n`-th on. The keys are
the slices that the batch is left with. -/
def clearLog : ℕ → List (MVCCKey × Entry) → Batch → CompactM Batch
  | _, [], batch => do
    attempt fault .iterate
    return batch
  | n, kv :: l, batch => do
    attempt fault (.clear n)
    clearLog (n + 1) l (batch.delete kv.1)

def setOffsetIndex (batch : Batch) (index : UInt64) : CompactM Batch := do
  attempt fault .marshal
  modify fun s => { s with replica := { s.replica with raftOffsetIndex := index } }
  attempt fault .put
  let id := (← getThe LogState).replica.rangeID
  return batch.set (raftOffsetIndexKey id) (.plain (Value.setInt index.toInt64))

def compact [Backend] (index : UInt64) : CompactM Unit := do
  let s ← getThe LogState
  let r := s.replica
  if index ≤ r.raftOffsetIndex then
    throw (.refused (.noNeedCompact r.rangeID r.raftOffsetIndex index))
  if index > r.raftLastIndex then throw (.refused (.outOfLastIndex r.rangeID r.raftLastIndex))
  let skey := raftLogKey r.rangeID 0
  let ekey := raftLogKey r.rangeID index
  let batch ← clearLog fault 0 (scan s.eng skey ekey 0) {}
  let batch ← setOffsetIndex fault batch index
  attempt fault .commit
  modify fun s => { s with eng := batch.commit s.eng }

end Steps

/-! ### How it ends -/

/-- The slices of the iteration. -/
def walk [Backend] (s : LogState) (index : UInt64) : List (MVCCKey × Entry) :=
  scan s.eng (raftLogKey s.replica.rangeID 0) (raftLogKey s.replica.rangeID index) 0

def InBounds (s : LogState) (index : UInt64) : Prop :=
  s.replica.raftOffsetIndex < index ∧ index ≤ s.replica.raftLastIndex

/-- The call is reached. -/
def Reached [Backend] (s : LogState) (index : UInt64) : Fault → Prop
  | .clear n => n < (walk s index).length
  | _ => True

/-- The replica with the offset in memory. -/
def moved (s : LogState) (index : UInt64) : LogState :=
  { s with replica := { s.replica with raftOffsetIndex := index } }

/-- The four ways in which `compact` ends. -/
inductive Ends [Backend] (fault : Option Fault) (s : LogState) (index : UInt64) :
    EStateM.Result CompactErr LogState Unit → Prop
  | refused (e : RaftErr) (hout : ¬ InBounds s index) : Ends fault s index (.error (.refused e) s)
  | early (f : Fault) (hin : InBounds s index) (hf : fault = some f) (hreached : Reached s index f)
    (hput : f ≠ .put) (hcommit : f ≠ .commit) : Ends fault s index (.error (.failed f) s)
  | late (f : Fault) (hin : InBounds s index) (hf : fault = some f)
    (hlate : f = .put ∨ f = .commit) : Ends fault s index (.error (.failed f) (moved s index))
  | done (hin : InBounds s index) (hok : ∀ f, fault = some f → ¬ Reached s index f) :
    Ends fault s index (.ok () ⟨(moved s index).replica,
      putIndex ((walk s index).foldl (fun eng kv => eng.clear kv.1) s.eng)
        (raftOffsetIndexKey s.replica.rangeID) index⟩)

section Run

variable {fault : Option Fault} {s : LogState} {index : UInt64}

lemma attempt_ok {f : Fault} (h : fault ≠ some f) : attempt fault f s = .ok () s := by
  rw [attempt, if_neg h]
  rfl

lemma attempt_error {f : Fault} (h : fault = some f) :
    attempt fault f s = .error (.failed f) s := by
  rw [attempt, if_pos h]
  rfl

/-- The iteration leaves everything as it is; only the batch has the deletions. -/
lemma clearLog_run (fault : Option Fault) (s : LogState) (n : ℕ) (l : List (MVCCKey × Entry))
    (batch : Batch) :
    (∃ f, fault = some f ∧ (f = .iterate ∨ ∃ i < l.length, f = .clear (n + i)) ∧
      clearLog fault n l batch s = .error (.failed f) s) ∨
    (fault ≠ some .iterate ∧ (∀ i < l.length, fault ≠ some (.clear (n + i))) ∧
      clearLog fault n l batch s = .ok ⟨batch.writes ++ l.map fun kv => (kv.1, none)⟩ s) := by
  induction l generalizing n batch with
  | nil =>
    by_cases h : fault = some .iterate
    · exact .inl ⟨_, h, .inl rfl, run_bind_error (attempt_error h)⟩
    · refine .inr ⟨h, fun i hi => absurd hi (Nat.not_lt_zero i), ?_⟩
      rw [clearLog, run_bind_ok (attempt_ok h), List.map_nil, List.append_nil]
      rfl
  | cons kv l ih =>
    by_cases h : fault = some (.clear n)
    · exact .inl ⟨_, h, .inr ⟨0, by simp, rfl⟩, run_bind_error (attempt_error h)⟩
    · have hrun : clearLog fault n (kv :: l) batch s =
          clearLog fault (n + 1) l (batch.delete kv.1) s := run_bind_ok (attempt_ok h)
      rw [hrun]
      rcases ih (n + 1) (batch.delete kv.1) with ⟨f, hf, hwhich, herr⟩ | ⟨hit, hcl, hok⟩
      · refine .inl ⟨f, hf, hwhich.imp_right ?_, herr⟩
        rintro ⟨i, hi, rfl⟩
        exact ⟨i + 1, by simpa using hi, by rw [Nat.add_right_comm, Nat.add_assoc]⟩
      · refine .inr ⟨hit, fun i hi => ?_, ?_⟩
        · rcases i with _ | i
          · exact h
          · have := hcl i (by simpa using hi)
            rwa [Nat.add_right_comm, Nat.add_assoc] at this
        · rw [hok]
          simp [Txn.delete]

/-- The offset is assigned before the `Put`. -/
lemma setOffsetIndex_run (fault : Option Fault) (s : LogState) (index : UInt64) (batch : Batch) :
    setOffsetIndex fault batch index s =
      if fault = some .marshal then .error (.failed .marshal) s
      else if fault = some .put then .error (.failed .put) (moved s index)
      else .ok (batch.set (raftOffsetIndexKey s.replica.rangeID)
        (.plain (Value.setInt index.toInt64))) (moved s index) := by
  have hassign : (modify fun s : LogState =>
      { s with replica := { s.replica with raftOffsetIndex := index } } : CompactM Unit) s =
      .ok () (moved s index) := rfl
  by_cases hm : fault = some .marshal
  · rw [if_pos hm]
    exact run_bind_error (attempt_error hm)
  rw [if_neg hm, setOffsetIndex, run_bind_ok (attempt_ok hm), run_bind_ok hassign]
  by_cases hp : fault = some .put
  · rw [if_pos hp]
    exact run_bind_error (attempt_error hp)
  · rw [if_neg hp, run_bind_ok (attempt_ok hp)]
    rfl

/-- The committed batch. -/
lemma commit_eq (eng : Engine) (l : List (MVCCKey × Entry)) (key : MVCCKey) :
    Txn.commit (Txn.set (⟨l.map fun kv => (kv.1, none)⟩ : Batch) key
      (.plain (Value.setInt index.toInt64))) eng =
      putIndex (l.foldl (fun eng kv => eng.clear kv.1) eng) key index := by
  simp only [Txn.commit, Txn.set, List.foldl_append, List.foldl_map]
  rfl

variable [Backend]

lemma compact_ends (fault : Option Fault) (s : LogState) (index : UInt64) :
    Ends fault s index (compact fault index s) := by
  unfold compact
  rw [run_bind_get]
  by_cases hlow : index ≤ s.replica.raftOffsetIndex
  · simp only [if_pos hlow]
    exact .refused _ fun hin => UInt64.not_lt.mpr hlow hin.1
  by_cases hhigh : index > s.replica.raftLastIndex
  · simp only [if_neg hlow, if_pos hhigh]
    exact .refused _ fun hin => UInt64.not_lt.mpr hin.2 hhigh
  have hin : InBounds s index := ⟨UInt64.not_le.mp hlow, UInt64.not_lt.mp hhigh⟩
  have hwalk : scan s.eng (raftLogKey s.replica.rangeID 0)
    (raftLogKey s.replica.rangeID index) 0 = walk s index := rfl
  simp only [if_neg hlow, if_neg hhigh, hwalk]
  rcases clearLog_run fault s 0 (walk s index) {} with
    ⟨f, hf, hwhich, hrun⟩ | ⟨hiterate, hclear, hrun⟩
  · refine (run_bind_error hrun).symm ▸ .early f hin hf ?_ ?_ ?_
    all_goals rcases hwhich with rfl | ⟨i, hi, rfl⟩
    · trivial
    · simpa [Reached] using hi
    all_goals nofun
  rw [run_bind_ok hrun]
  have hset := setOffsetIndex_run fault s index
    ⟨([] : List (MVCCKey × Option Entry)) ++ (walk s index).map fun kv => (kv.1, none)⟩
  by_cases hmarshal : fault = some .marshal
  · rw [if_pos hmarshal] at hset
    exact (run_bind_error hset).symm ▸ .early .marshal hin hmarshal trivial nofun nofun
  rw [if_neg hmarshal] at hset
  by_cases hput : fault = some .put
  · rw [if_pos hput] at hset
    exact (run_bind_error hset).symm ▸ .late .put hin hput (.inl rfl)
  rw [if_neg hput] at hset
  rw [run_bind_ok hset]
  by_cases hcommit : fault = some .commit
  · exact (run_bind_error (attempt_error hcommit)).symm ▸ .late .commit hin hcommit (.inr rfl)
  rw [run_bind_ok (attempt_ok hcommit)]
  have hdone : ∀ f, fault = some f → ¬ Reached s index f := by
    rintro f hf hreached
    cases f with
    | clear n => exact hclear n hreached (by rw [hf, Nat.zero_add])
    | iterate => exact hiterate hf
    | marshal => exact hmarshal hf
    | put => exact hput hf
    | commit => exact hcommit hf
  have hend := Ends.done hin hdone
  rw [← commit_eq] at hend
  exact hend

/-- Without a failure this is the compaction of the log. -/
theorem compact_none (s : LogState) (index : UInt64) :
    compact none index s =
      match s.replica.compact s.eng index with
      | .ok p => .ok () ⟨p.1, p.2⟩
      | .error e => .error (.refused e) s := by
  by_cases hlow : index ≤ s.replica.raftOffsetIndex
  · unfold compact RaftReplica.compact
    rw [run_bind_get]
    simp only [if_pos hlow]
    rfl
  by_cases hhigh : index > s.replica.raftLastIndex
  · unfold compact RaftReplica.compact
    rw [run_bind_get]
    simp only [if_neg hlow, if_pos hhigh]
    rfl
  have hends := compact_ends none s index
  rw [RaftReplica.compact, if_neg hlow, if_neg hhigh]
  cases hrun : compact none index s with
  | ok u s' =>
    rw [hrun] at hends
    cases hends
    rfl
  | error e s' =>
    rw [hrun] at hends
    cases hends with
    | refused e hout => exact absurd ⟨UInt64.not_le.mp hlow, UInt64.not_lt.mp hhigh⟩ hout
    | early f hin hf => cases hf
    | late f hin hf => cases hf

end Run

/-! ### Failed compactions -/

/-- Offset and log are as before. -/
structure Kept (s s' : LogState) : Prop where
  offset : s'.replica.raftOffsetIndex = s.replica.raftOffsetIndex
  persisted : s'.replica.loadOffsetIndex s'.eng = s.replica.loadOffsetIndex s.eng
  stored : ∀ id j, s'.eng.get (raftLogKey id j) = s.eng.get (raftLogKey id j)
  firstIndex : s'.replica.firstIndex = s.replica.firstIndex
  entries : ∀ lo hi maxSize,
    s'.replica.entries s'.eng lo hi maxSize = s.replica.entries s.eng lo hi maxSize

/-- Both offsets are the index, and of all logs the entries of this one below it are gone. -/
structure Compacted (s s' : LogState) (index : UInt64) : Prop where
  offset : s'.replica.raftOffsetIndex = index
  persisted : s'.replica.loadOffsetIndex s'.eng = .ok index
  stored : ∀ id j, s'.eng.get (raftLogKey id j) =
    if id = s.replica.rangeID ∧ j < index then none else s.eng.get (raftLogKey id j)

/-- All or nothing. -/
def Atomic [Backend] (fault : Option Fault) (index : UInt64) (s : LogState) : Prop :=
  match compact fault index s with
  | .ok _ s' => Compacted s s' index
  | .error _ s' => Kept s s'

/-- The keys of the stored entries are on the same side of the key of `index` as their indexes
are of `index`. -/
def Sorted (s : LogState) (index : UInt64) : Prop :=
  ∀ j, s.eng.get (raftLogKey s.replica.rangeID j) ≠ none →
    (raftLogKey s.replica.rangeID j < raftLogKey s.replica.rangeID index ↔ j < index)

/-- Of the keys of stored entries, the batch holds those of this log below the index. -/
def Deletes [Backend] (s : LogState) (index : UInt64) : Prop :=
  ∀ id j, s.eng.get (raftLogKey id j) ≠ none →
    (raftLogKey id j ∈ (walk s index).map Prod.fst ↔ id = s.replica.rangeID ∧ j < index)

section Atomic

variable {s : LogState} {index : UInt64}

lemma sorted_of_digits (hindex : index.toNat < 10 ^ 16)
    (hstored : ∀ j, s.eng.get (raftLogKey s.replica.rangeID j) ≠ none → j.toNat < 10 ^ 16) :
    Sorted s index :=
  fun j hj => raftLogKey_lt_iff _ (hstored j hj) hindex

lemma Kept.refl (s : LogState) : Kept s s :=
  ⟨rfl, rfl, fun _ _ => rfl, rfl, fun _ _ _ => rfl⟩

/-- The entries that the iteration meets. -/
lemma mem_iterate_log (s : LogState) (index : UInt64) {id : RangeID} {j : UInt64}
    (hget : s.eng.get (raftLogKey id j) ≠ none) :
    raftLogKey id j ∈ (iterate s.eng (raftLogKey s.replica.rangeID 0)
        (raftLogKey s.replica.rangeID index)).map Prod.fst ↔
      id = s.replica.rangeID ∧
        raftLogKey s.replica.rangeID j < raftLogKey s.replica.rangeID index := by
  rw [mem_iterate_keys, and_iff_left hget]
  constructor
  · rintro ⟨hge, hlt⟩
    obtain rfl := id_of_between hge hlt
    exact ⟨rfl, hlt⟩
  · rintro ⟨rfl, hlt⟩
    exact ⟨raftLogKey_zero_le _ j, hlt⟩

/-- Where keys are copied, it comes down to the order of the log keys. -/
lemma deletes_ordered_iff : @Deletes .ordered s index ↔ Sorted s index := by
  have hwalk : @walk .ordered s index = iterate s.eng (raftLogKey s.replica.rangeID 0)
      (raftLogKey s.replica.rangeID index) := (scan_ordered _ _ _ 0).trans (if_pos rfl)
  unfold Deletes
  rw [hwalk]
  constructor
  · intro h j hj
    have := (mem_iterate_log s index hj).symm.trans (h s.replica.rangeID j hj)
    simpa using this
  · intro h id j hj
    rw [mem_iterate_log s index hj]
    refine and_congr_right fun hid => ?_
    subst hid
    exact h j hj

variable [Backend]

end Atomic

section Shipped

attribute [local instance] Slices.twoItems Backend.badger

/-- A log of three entries that nothing has compacted, as `append` leaves it. -/
def threeEntries : LogState where
  replica := { rangeID := 1, rangeDesc := ⟨1, [1], [9], []⟩, raftLastIndex := 3 }
  eng := putIndex (RaftReplica.putEntries 1 [{ term := 1, index := 1 }, { term := 1, index := 2 },
    { term := 1, index := 3 }] .empty) (raftLastIndexKey 1) 3

/-- The state after a compaction in which nothing fails. -/
def committed : LogState := stateAfter (compact none 3) threeEntries

end Shipped

end Ancestor.Compaction
