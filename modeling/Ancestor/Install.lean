import Ancestor.LogKeys

/-!
The contract of the log storage after a snapshot has been installed.

`applySnapshot` moves the last and the applied index and keeps the truncated index and term in
memory; the offset, from which `FirstIndex` and the test of `Entries` are computed, and the
entries of the old log stay as they were. `Term` reads through `Entries`, so the contract cannot
be met by any state of a replica; what is met and what is missed is said part by part.
-/

namespace Ancestor

/-- What a log storage shows once a snapshot up to `index` is installed: nothing up to `index`
is left to read but the term of `index` itself. -/
def Installed (r : RaftReplica) (eng : Engine) (index term : UInt64) : Prop :=
  r.firstIndex = index + 1 ∧ r.lastIndex = index ∧ r.term eng index = .ok term ∧
    ∀ lo hi maxSize : UInt64, lo ≤ index → lo < hi →
      r.entries eng lo hi maxSize = .error .compacted

lemma entries_of_ge (r : RaftReplica) (eng : Engine) {lo hi : UInt64} (maxSize : UInt64)
    (h : lo ≥ hi) :
    r.entries eng lo hi maxSize = .error (.invalidParameter r.rangeID lo hi maxSize) := by
  rw [RaftReplica.entries, if_pos h]
  rfl

/-- `Term` reads through `Entries`, and so it fails where `Entries` does. -/
lemma term_of_error {r : RaftReplica} {eng : Engine} {i : UInt64} {e : RaftErr}
    (h : r.entries eng i (i + 1) 0 = .error e) : r.term eng i = .error e := by
  rw [RaftReplica.term, h]
  rfl

/-- Where there is no entry to read, the truncated term is all that `Term` has. -/
lemma term_of_nil {r : RaftReplica} {eng : Engine} {i : UInt64}
    (h : r.entries eng i (i + 1) 0 = .ok []) :
    r.term eng i = .ok (if i = r.raftTruncateIndex then r.raftTruncateTerm else 0) := by
  rw [RaftReplica.term, h]
  simp only [bind, Except.bind]
  split_ifs <;> rfl

lemma not_installed (r : RaftReplica) (eng : Engine) (index term : UInt64) :
    ¬ Installed r eng index term := by
  rintro ⟨-, -, hterm, hentries⟩
  by_cases hlt : index < index + 1
  · -- the entry whose term is asked for is one that must not be readable
    rw [term_of_error (hentries index (index + 1) 0 UInt64.le_rfl hlt)] at hterm
    cases hterm
  · rw [term_of_error (entries_of_ge r eng 0 (UInt64.not_lt.mp hlt))] at hterm
    cases hterm

lemma last_ne_applied (id id' : RangeID) : raftLastIndexKey id ≠ raftAppliedIndexKey id' := by
  intro h
  have hk := newMVCCKey_inj.mp h
  simp [newKey, lastIndexPrefix, appliedIndexPrefix, systemPrefix] at hk

/-- The parts of the contract that a replica meets: the last index, the term where `Entries` has
nothing to say, and the first index where the offset was that of the snapshot already. -/
structure MeetsPart (r : RaftReplica) (eng : Engine) (offset index term : UInt64) : Prop where
  last : r.lastIndex = index
  first : r.firstIndex = index + 1 ↔ offset = index
  term : r.entries eng index (index + 1) 0 = .ok [] → r.term eng index = .ok term

section Contract

variable [Backend] (r : RaftReplica) (s : RaftSnapshot) (st : St)

lemma meets_applySnapshot :
    MeetsPart (r.applySnapshot s st).1 (r.applySnapshot s st).2.eng r.raftOffsetIndex s.index
      s.term where
  last := rfl
  first := UInt64.add_left_inj 1
  term := fun h => by
    rw [term_of_nil h]
    exact congrArg _ (if_pos rfl)

/-- A replica that starts again has the indexes of the engine, and no truncated term. -/
lemma meets_newReplica (hid : r.rangeDesc.rangeID = r.rangeID) (h0 : s.index ≠ 0) :
    MeetsPart (RaftReplica.newReplica r.rangeDesc (r.applySnapshot s st).2.eng)
      (r.applySnapshot s st).2.eng
      ((loadIndex (r.applySnapshot s st).2.eng (raftOffsetIndexKey r.rangeID)).toOption.getD 0)
      s.index 0 where
  last := by
    have hload : loadIndex (r.applySnapshot s st).2.eng (raftLastIndexKey r.rangeID) =
        .ok s.index := by
      obtain ⟨eng, heng⟩ : ∃ eng, (r.applySnapshot s st).2.eng =
          putIndex (putIndex eng (raftLastIndexKey r.rangeID) s.index)
            (raftAppliedIndexKey r.rangeID) s.index := ⟨_, rfl⟩
      rw [heng, loadIndex_congr (get_putIndex_of_ne _ (last_ne_applied _ _) _)]
      exact loadIndex_putIndex _ _ _
    show (loadIndex _ (raftLastIndexKey r.rangeDesc.rangeID)).toOption.getD 0 = s.index
    rw [hid, hload]
    rfl
  first := by
    show (loadIndex _ (raftOffsetIndexKey r.rangeDesc.rangeID)).toOption.getD 0 + 1 = _ ↔ _
    rw [hid]
    exact UInt64.add_left_inj 1
  term := fun h => by
    rw [term_of_nil h]
    exact congrArg _ (if_neg h0)

/-- **The contract of an installed snapshot is never met**, neither right after `applySnapshot`
nor when the replica starts again on the same engine: `Term` reads through `Entries`. What
`applySnapshot` leaves otherwise is the right last index and term over the old offset; after a
restart the term is gone too. -/
theorem snapshot_contract_never (r : RaftReplica) (s : RaftSnapshot) (st : St) :
    (¬ Installed (r.applySnapshot s st).1 (r.applySnapshot s st).2.eng s.index s.term ∧
      ¬ Installed (RaftReplica.newReplica r.rangeDesc (r.applySnapshot s st).2.eng)
        (r.applySnapshot s st).2.eng s.index s.term) ∧
    MeetsPart (r.applySnapshot s st).1 (r.applySnapshot s st).2.eng r.raftOffsetIndex s.index
      s.term ∧
    (r.rangeDesc.rangeID = r.rangeID → s.index ≠ 0 →
      MeetsPart (RaftReplica.newReplica r.rangeDesc (r.applySnapshot s st).2.eng)
        (r.applySnapshot s st).2.eng
        ((loadIndex (r.applySnapshot s st).2.eng (raftOffsetIndexKey r.rangeID)).toOption.getD 0)
        s.index 0) :=
  ⟨⟨not_installed _ _ _ _, not_installed _ _ _ _⟩, meets_applySnapshot r s st,
    meets_newReplica r s st⟩

end Contract

section Follower

attribute [local instance] Slices.twoItems Backend.badger

/-- A follower with the entries 1 to 3 of term 1. -/
def follower : RaftReplica × Engine :=
  RaftReplica.append
    { rangeID := 4, rangeDesc := { rangeID := 4, startKey := [0x02], endKey := [0x03] } } .empty
    [{ term := 1, index := 1 }, { term := 1, index := 2 }, { term := 1, index := 3 }]

/-- The follower after it has installed the snapshot at index 5 of term 2. -/
def caughtUp : RaftReplica × St := follower.1.applySnapshot ⟨[], 5, 2⟩ ⟨follower.2, {}⟩

theorem snapshot_keeps_old_log :
    follower.1.raftAppliedIndex < 5 ∧ ¬ Installed caughtUp.1 caughtUp.2.eng 5 2 ∧
      caughtUp.1.firstIndex = 1 ∧
      caughtUp.1.entries caughtUp.2.eng 2 4 0 =
        .ok [{ term := 1, index := 2 }, { term := 1, index := 3 }] ∧
      caughtUp.1.entries caughtUp.2.eng 5 6 0 = .ok [] ∧
      (RaftReplica.newReplica follower.1.rangeDesc caughtUp.2.eng).term caughtUp.2.eng 5 =
        .ok 0 := by
  refine ⟨by decide +kernel, ?_, by decide +kernel, by decide +kernel, by decide +kernel,
    by decide +kernel⟩
  rintro ⟨hfirst, -⟩
  exact absurd hfirst (by decide +kernel)

end Follower

end Ancestor
