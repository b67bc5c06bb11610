import Ancestor.Apply
import Ancestor.LogKeys
import Ancestor.Lib.Steps

/-!
Taking a raft snapshot while commands are applied (`replica.snapshot`, `processRaftCommand`).

The worker that takes a snapshot reads the applied index, then its term, then the pairs of the
range, and the raft goroutine does not wait for it. The pairs are the content of the range at the
index when no command is being executed from the first of these reads to the last, and the loop
that reads them reads the range: its raw bounds compare with the stored keys as the keys do, and
what it has kept of the iterator is still there at its end.
-/

namespace Ancestor

open Hoare

section Cuts

variable [Backend]

/-! ### The two goroutines -/

/-- Where the raft goroutine stands in a command. -/
inductive Applier
  | idle
  | running (cmd : RaftCommand) (rest : List Request)
  deriving DecidableEq

/-- Where the worker stands in `snapshot`. -/
inductive Worker
  | idle
  | index (i : UInt64)
  | term (i t : UInt64)
  deriving DecidableEq

structure CutState where
  raft : RaftReplica
  store : Store
  /-- the committed commands that are still to be applied -/
  todo : List RaftCommand
  applier : Applier := .idle
  worker : Worker := .idle
  snapshots : List RaftSnapshot := []

inductive CutAction
  | start
  | execute
  | setAppliedIndex
  | readIndex
  | readTerm
  | readData
  deriving DecidableEq, Repr

/-- The pairs that `data` reads, with the bounds the replica has now. -/
def rangeData (id : RangeID) (s : Store) : List (MVCCKey × Entry) :=
  (s.replicas id).elim [] fun r => r.data s.eng

/-- The entries of the range's keys. -/
def rangeContent (id : RangeID) (s : Store) : List (MVCCKey × Entry) :=
  (s.replicas id).elim [] fun r => s.eng.entries.filter fun e => keyIn r e.1

namespace CutState

-- A failed read ends the worker without a snapshot.
def step (s : CutState) : CutAction → Option CutState
  | .start =>
    match s.applier, s.todo with
    | .idle, cmd :: todo => some { s with applier := .running cmd cmd.req, todo }
    | _, _ => none
  | .execute =>
    match s.applier with
    | .running cmd (request :: rest) =>
      match (do (← getReplica s.raft.rangeID).applyRequest cmd.pusheeTxn request) s.store with
      | .ok _ store => some { s with store, applier := .running cmd rest }
      | .error _ store => some { s with store, applier := .running cmd [] }
    | _ => none
  | .setAppliedIndex =>
    match s.applier with
    | .running cmd [] =>
      let (raft, eng) := s.raft.setAppliedIndex s.store.eng cmd.index
      some { s with raft, store := { s.store with eng }, applier := .idle }
    | _ => none
  | .readIndex =>
    match s.worker with
    | .idle =>
      match s.raft.loadAppliedIndex s.store.eng with
      | .ok i => some { s with worker := .index i }
      | .error _ => some s
    | _ => none
  | .readTerm =>
    match s.worker with
    | .index i =>
      match s.raft.term s.store.eng i with
      | .ok t => some { s with worker := .term i t }
      | .error _ => some { s with worker := .idle }
    | _ => none
  | .readData =>
    match s.worker with
    | .term i t =>
      some { s with
        snapshots := s.snapshots ++ [⟨rangeData s.raft.rangeID s.store, i, t⟩], worker := .idle }
    | _ => none

/-- A replica with committed commands above its applied index, on an engine with encoded keys. -/
structure Ready (s : CutState) : Prop where
  applier : s.applier = .idle
  worker : s.worker = .idle
  snapshots : s.snapshots = []
  applied : ∃ i, s.raft.loadAppliedIndex s.store.eng = .ok i ∧ ∀ cmd ∈ s.todo, i < cmd.index
  increasing : s.todo.Pairwise fun cmd cmd' => cmd.index < cmd'.index
  encoded : Encoded s.store.eng

/-- The state after the commands, applied with nothing in between. -/
def replay (s : CutState) (cmds : List RaftCommand) : RaftReplica × Store :=
  cmds.foldl (fun p cmd => processRaftCommand p.1 p.2 cmd) (s.raft, s.store)

/-- The snapshot holds the content of the range after exactly the commands up to its index. -/
def Consistent (s : CutState) (snap : RaftSnapshot) : Prop :=
  snap.data = rangeContent s.raft.rangeID
    (s.replay (s.todo.filter fun cmd => cmd.index ≤ snap.index)).2

/-- A command and a snapshot do not overlap: the worker starts between two commands, and a
command starts when no worker is reading. -/
def Apart (s : CutState) : CutAction → Prop
  | .start => s.worker = .idle
  | .readIndex => s.applier = .idle
  | _ => True

instance (s : CutState) : DecidablePred s.Apart
  | .start => inferInstanceAs (Decidable (s.worker = .idle))
  | .readIndex => inferInstanceAs (Decidable (s.applier = .idle))
  | .execute | .setAppliedIndex | .readTerm | .readData => isTrue trivial

/-- The data are read between bounds without zero bytes, and the iterator leaves the pairs alone
that the loop has kept. -/
def Whole (s : CutState) : CutAction → Prop
  | .readData => ∀ r ∈ s.store.replicas s.raft.rangeID,
      (0 ∉ r.rangeDesc.startKey ∧ 0 ∉ r.rangeDesc.endKey) ∧
        let l := s.store.eng.seek r.rangeDesc.startKey
        Backend.Intact l (dataLoop r.rangeDesc.endKey l).length
  | _ => True

instance (s : CutState) : DecidablePred s.Whole
  | .readData => inferInstanceAs (Decidable (∀ r ∈ s.store.replicas s.raft.rangeID, _))
  | .start | .execute | .setAppliedIndex | .readIndex | .readTerm => isTrue trivial

/-! ### The invariant -/

/-- How the state relates to the one at the start, after the commands `finished`. -/
structure After (s₀ s : CutState) (finished : List RaftCommand) : Prop where
  rangeID : s.raft.rangeID = s₀.raft.rangeID
  raft : s.raft = (s₀.replay finished).1
  commands : s₀.todo = finished ++ match s.applier with
    | .idle => s.todo
    | .running cmd _ => cmd :: s.todo
  /-- what is left of the command leads where the whole command does -/
  store : match s.applier with
    | .idle => s.store = (s₀.replay finished).2
    | .running cmd rest =>
      stateAfter (execute s.raft.rangeID cmd.pusheeTxn rest) s.store =
        stateAfter (execute s.raft.rangeID cmd.pusheeTxn cmd.req) (s₀.replay finished).2
  applied : s.applier = .idle → ∃ i, s.raft.loadAppliedIndex s.store.eng = .ok i ∧
    (∀ cmd ∈ finished, cmd.index ≤ i) ∧ ∀ cmd ∈ s.todo, i < cmd.index
  worker : ∀ i, (s.worker = .index i ∨ ∃ t, s.worker = .term i t) →
    s.applier = .idle ∧ s.raft.loadAppliedIndex s.store.eng = .ok i
  snapshots : ∀ snap ∈ s.snapshots, s₀.Consistent snap
  encoded : Encoded s.store.eng

section

variable {s₀ s s' : CutState} {finished : List RaftCommand}

lemma Ready.after (h : s.Ready) : After s s [] := by
  obtain ⟨happ, hworker, hsnaps, ⟨i, hi, htodo⟩, -, henc⟩ := h
  constructor
  · rfl
  · rfl
  · simp [happ]
  · simp [happ, replay]
  · exact fun _ => ⟨i, hi, by simp, htodo⟩
  · simp [hworker]
  · simp [hsnaps]
  · exact henc

lemma replay_append (s : CutState) (cmds : List RaftCommand) (cmd : RaftCommand) :
    s.replay (cmds ++ [cmd]) = processRaftCommand (s.replay cmds).1 (s.replay cmds).2 cmd := by
  rw [replay, List.foldl_append]
  rfl

/-- The pairs that are read are the content of the range. -/
lemma Whole.content (h : s.Whole .readData) (henc : Encoded s.store.eng) :
    rangeData s.raft.rangeID s.store = rangeContent s.raft.rangeID s.store := by
  unfold rangeData rangeContent
  cases hr : s.store.replicas s.raft.rangeID with
  | none => rfl
  | some r =>
    obtain ⟨⟨hs, he⟩, hintact⟩ := h r hr
    have hdata : r.data s.store.eng = _ := hintact
    show r.data s.store.eng = _
    rw [hdata, take_length_dataLoop, dataLoop_seek]
    exact List.filter_congr fun e hmem => rawIn_eq_keyIn hs he (henc e hmem)

/-- **The pairs read while the applier is idle belong to the applied index.** -/
lemma After.consistent (h : After s₀ s finished) (hwhole : s.Whole .readData) {i t : UInt64}
    (happ : s.applier = .idle)
    (hi : s.raft.loadAppliedIndex s.store.eng = .ok i) :
    s₀.Consistent ⟨rangeData s.raft.rangeID s.store, i, t⟩ := by
  obtain ⟨j, hj, hfin, htodo⟩ := h.applied happ
  have hij : i = j := by simpa [hi] using hj
  subst hij
  have hcmds : s₀.todo = finished ++ s.todo := by simpa [happ] using h.commands
  have hstore : s.store = (s₀.replay finished).2 := by simpa [happ] using h.store
  have hfilter : s₀.todo.filter (fun cmd => decide (cmd.index ≤ i)) = finished := by
    rw [hcmds, List.filter_append, List.filter_eq_self.mpr, List.filter_eq_nil_iff.mpr,
      List.append_nil]
    · exact fun cmd hcmd => by simpa using htodo cmd hcmd
    · exact fun cmd hcmd => by simpa using hfin cmd hcmd
  rw [Consistent, hfilter, ← hstore, hwhole.content h.encoded, h.rangeID]

lemma After.start (h : After s₀ s finished) (happart : s.Apart .start)
    (hstep : s.step .start = some s') : After s₀ s' finished := by
  obtain ⟨hid, hraft, hcmds, hstore, -, -, hsnaps, henc⟩ := h
  have hworker : s.worker = .idle := happart
  cases happ : s.applier with
  | running cmd rest => simp [step, happ] at hstep
  | idle =>
    cases htodo : s.todo with
    | nil => simp [step, happ, htodo] at hstep
    | cons cmd todo =>
      simp only [step, happ, htodo, Option.some.injEq] at hstep
      subst hstep
      simp only [happ, htodo] at hcmds hstore
      refine ⟨hid, hraft, hcmds, ?_, by simp, by simp [hworker], hsnaps, henc⟩
      show stateAfter _ s.store = _
      rw [hstore]

/-- One request more: the rest of the batch is what is left of it. -/
lemma stateAfter_execute_cons (id : RangeID) (pusheeTxn : List Transaction) (request : Request)
    (rest : List Request) (s : Store) :
    stateAfter (execute id pusheeTxn (request :: rest)) s =
      match (do (← getReplica id).applyRequest pusheeTxn request) s with
      | .ok _ s' => stateAfter (execute id pusheeTxn rest) s'
      | .error _ s' => stateAfter (execute id pusheeTxn []) s' := by
  have hbind : execute id pusheeTxn (request :: rest) =
      (do (← getReplica id).applyRequest pusheeTxn request) >>= fun resp =>
        execute id pusheeTxn rest >>= fun l => pure (resp :: l) := by
    rw [execute]
    simp only [bind_assoc]
  rw [hbind]
  cases hrun : (do (← getReplica id).applyRequest pusheeTxn request : StoreM Response) s with
  | ok resp s' =>
    show _ = stateAfter (execute id pusheeTxn rest) s'
    rw [stateAfter_congr (run_bind_ok hrun)]
    cases hrest : execute id pusheeTxn rest s' with
    | ok l s'' =>
      rw [stateAfter_ok hrest, stateAfter_congr (run_bind_ok hrest)]
      rfl
    | error e s'' => rw [stateAfter_error hrest, stateAfter_error (run_bind_error hrest)]
  | error e s' => exact stateAfter_error (run_bind_error hrun)

lemma After.execute (h : After s₀ s finished) (hstep : s.step .execute = some s') :
    After s₀ s' finished := by
  obtain ⟨hid, hraft, hcmds, hstore, -, hworker, hsnaps, henc⟩ := h
  cases happ : s.applier with
  | idle => simp [step, happ] at hstep
  | running cmd rest =>
    cases rest with
    | nil => simp [step, happ] at hstep
    | cons request rest =>
      have hkeep : Keeps (fun s : Store => Encoded s.eng) (do
          (← getReplica s.raft.rangeID).applyRequest cmd.pusheeTxn request) := keeps_request _ _
      have hidle : ∀ i, ¬ (s.worker = .index i ∨ ∃ t, s.worker = .term i t) :=
        fun i hi => by simpa [happ] using (hworker i hi).1
      simp only [happ, stateAfter_execute_cons] at hcmds hstore
      simp only [step, happ] at hstep
      cases hrun : (do (← getReplica s.raft.rangeID).applyRequest cmd.pusheeTxn request :
          StoreM Response) s.store with
      | ok resp store =>
        rw [hrun] at hstep hstore
        cases hstep
        exact ⟨hid, hraft, hcmds, hstore, by simp, fun i hi => absurd hi (hidle i), hsnaps,
          hkeep.of_ok henc hrun⟩
      | error e store =>
        rw [hrun] at hstep hstore
        cases hstep
        exact ⟨hid, hraft, hcmds, hstore, by simp, fun i hi => absurd hi (hidle i), hsnaps,
          hkeep.of_error henc hrun⟩

lemma After.setAppliedIndex (hinc : s₀.todo.Pairwise fun cmd cmd' => cmd.index < cmd'.index)
    (h : After s₀ s finished) (hstep : s.step .setAppliedIndex = some s') :
    ∃ finished', After s₀ s' finished' := by
  obtain ⟨hid, hraft, hcmds, hstore, -, hworker, hsnaps, henc⟩ := h
  cases happ : s.applier with
  | idle => simp [step, happ] at hstep
  | running cmd rest =>
    cases rest with
    | cons request rest => simp [step, happ] at hstep
    | nil =>
      have hidle : ∀ i, ¬ (s.worker = .index i ∨ ∃ t, s.worker = .term i t) :=
        fun i hi => by simpa [happ] using (hworker i hi).1
      simp only [step, happ, Option.some.injEq] at hstep
      subst hstep
      simp only [happ] at hcmds hstore
      have hreplay : s₀.replay (finished ++ [cmd]) = processRaftCommand s.raft
          (s₀.replay finished).2 cmd := by rw [replay_append, ← hraft]
      have hstore' : s.store =
          stateAfter (Ancestor.execute s.raft.rangeID cmd.pusheeTxn cmd.req)
            (s₀.replay finished).2 := hstore
      rw [hcmds, List.pairwise_append] at hinc
      obtain ⟨-, hafter, hbefore⟩ := hinc
      refine ⟨finished ++ [cmd], hid, ?_, by simp [hcmds], ?_, fun _ => ⟨cmd.index, ?_, ?_, ?_⟩,
        fun i hi => absurd hi (hidle i), hsnaps, encoded_put henc (metaKey_mem _) _⟩
      · rw [hreplay]
        rfl
      · rw [hreplay, processRaftCommand, ← hstore']
      · exact loadIndex_putIndex _ _ _
      · intro c hc
        rcases List.mem_append.mp hc with hc | hc
        · exact UInt64.le_of_lt (hbefore c hc cmd List.mem_cons_self)
        · rw [List.mem_singleton.mp hc]
          exact UInt64.le_rfl
      · exact fun c hc => (List.pairwise_cons.mp hafter).1 c hc

lemma After.read (h : After s₀ s finished) {a : CutAction} (happart : s.Apart a)
    (hwhole : s.Whole a)
    (ha : a = .readIndex ∨ a = .readTerm ∨ a = .readData) (hstep : s.step a = some s') :
    After s₀ s' finished := by
  obtain ⟨hid, hraft, hcmds, hstore, happlied, hworker, hsnaps, henc⟩ := h
  rcases ha with rfl | rfl | rfl
  · cases hw : s.worker <;> simp only [step, hw, reduceCtorEq] at hstep
    cases hload : s.raft.loadAppliedIndex s.store.eng with
    | ok i =>
      rw [hload] at hstep
      cases hstep
      refine ⟨hid, hraft, hcmds, hstore, happlied, fun j hj => ⟨happart, ?_⟩, hsnaps, henc⟩
      have hij : i = j := by simpa using hj
      rw [← hij]
      exact hload
    | error e =>
      rw [hload] at hstep
      cases hstep
      exact ⟨hid, hraft, hcmds, hstore, happlied, hworker, hsnaps, henc⟩
  · cases hw : s.worker <;> simp only [step, hw, reduceCtorEq] at hstep
    rename_i i
    cases hterm : s.raft.term s.store.eng i with
    | ok t =>
      rw [hterm] at hstep
      cases hstep
      refine ⟨hid, hraft, hcmds, hstore, happlied, fun j hj => ?_, hsnaps, henc⟩
      have hij : i = j := by simpa using hj
      exact hworker j (.inl (by rw [hw, hij]))
    | error e =>
      rw [hterm] at hstep
      cases hstep
      exact ⟨hid, hraft, hcmds, hstore, happlied, by simp, hsnaps, henc⟩
  · cases hw : s.worker <;> simp only [step, hw, reduceCtorEq] at hstep
    rename_i i t
    cases hstep
    refine ⟨hid, hraft, hcmds, hstore, happlied, by simp, fun snap hsnap => ?_, henc⟩
    rcases List.mem_append.mp hsnap with hsnap | hsnap
    · exact hsnaps snap hsnap
    · rw [List.mem_singleton.mp hsnap]
      obtain ⟨happ, hi⟩ := hworker i (.inr ⟨t, hw⟩)
      exact After.consistent ⟨hid, hraft, hcmds, hstore, happlied, hworker, hsnaps, henc⟩ hwhole
        happ hi

lemma After.step (hinc : s₀.todo.Pairwise fun cmd cmd' => cmd.index < cmd'.index)
    (h : ∃ finished, After s₀ s finished) {a : CutAction} (happart : s.Apart a)
    (hwhole : s.Whole a) (hstep : s.step a = some s') : ∃ finished, After s₀ s' finished := by
  obtain ⟨finished, h⟩ := h
  cases a with
  | start => exact ⟨finished, h.start happart hstep⟩
  | execute => exact ⟨finished, h.execute hstep⟩
  | setAppliedIndex => exact h.setAppliedIndex hinc hstep
  | readIndex => exact ⟨finished, h.read happart hwhole (.inl rfl) hstep⟩
  | readTerm => exact ⟨finished, h.read happart hwhole (.inr (.inl rfl)) hstep⟩
  | readData => exact ⟨finished, h.read happart hwhole (.inr (.inr rfl)) hstep⟩

end

end CutState

/-! ### Consistent cuts -/

/-- **Snapshots that do not overlap a command and are read whole are consistent cuts**, in every
run and on every engine. -/
theorem snapshots_consistent {s₀ s : CutState} {l : List CutAction} (hready : s₀.Ready)
    (hapart : Steps.Along CutState.step (fun s a => s.Apart a ∧ s.Whole a) s₀ l)
    (hrun : Steps.run CutState.step s₀ l = some s) :
    ∀ snap ∈ s.snapshots, s₀.Consistent snap := by
  have hinv : ∃ finished, CutState.After s₀ s finished :=
    Steps.invariant
      (fun _ _ _ h hC hstep => CutState.After.step hready.increasing h hC.1 hC.2 hstep)
      ⟨[], hready.after⟩ hapart hrun
  obtain ⟨finished, h⟩ := hinv
  exact h.snapshots

/-- The snapshots a run has taken. -/
def CutState.taken (s : CutState) (l : List CutAction) : List RaftSnapshot :=
  (Steps.run CutState.step s l).elim [] (·.snapshots)

end Cuts

section Shipped

attribute [local instance] Slices.twoItems Backend.badger

/-- A put of one byte by a transaction that began at time `t`. -/
def putCommand (index : UInt64) (key : Key) (t : Int64) : RaftCommand :=
  { index
    req := [.put
      { key, timestamp := ⟨t, 0⟩, txn := { id := [0x01], timestamp := ⟨t, 0⟩ }, rangeID := 4,
        value := { bytes := [0x61] } }] }

/-- Two committed puts, with their entries in the log and nothing applied. -/
def twoPuts : CutState :=
  let rd : RangeDescriptor := { rangeID := 4, startKey := [0x02], endKey := [0x03] }
  let log := RaftReplica.append { rangeID := 4, rangeDesc := rd } .empty
    [{ term := 1, index := 1 }, { term := 1, index := 2 }]
  { raft := log.1
    store := { Store.empty.add ⟨4, rd⟩ with eng := log.2 }
    todo := [putCommand 1 [0x02, 0x61] 1, putCommand 2 [0x02, 0x62] 1] }

lemma twoPuts_ready : twoPuts.Ready := by
  refine ⟨rfl, rfl, rfl, ⟨0, by decide +kernel, by decide +kernel⟩, by decide +kernel, ?_⟩
  have hempty : Encoded (OrdMap.empty : Engine) := fun e he => by cases he
  exact encoded_put (encoded_put (encoded_put hempty (metaKey_mem _) _) (metaKey_mem _) _)
    (metaKey_mem _) _

/-- The worker runs between the first put and the second. -/
def apartRun : List CutAction :=
  [.start, .execute, .setAppliedIndex, .readIndex, .readTerm, .readData, .start, .execute,
    .setAppliedIndex]

/-- The second put falls between the reads of the worker. -/
def racingRun : List CutAction :=
  [.start, .execute, .setAppliedIndex, .readIndex, .readTerm, .start, .execute, .readData]

theorem snapshots_consistent_apartRun :
    (twoPuts.taken apartRun).map (·.index) = [1] ∧
      ∀ snap ∈ twoPuts.taken apartRun, twoPuts.Consistent snap := by
  refine ⟨by decide +kernel, fun snap hsnap => ?_⟩
  have hsome : (Steps.run CutState.step twoPuts apartRun).isSome := by decide +kernel
  obtain ⟨s, hs⟩ := Option.isSome_iff_exists.mp hsome
  rw [CutState.taken, hs] at hsnap
  exact snapshots_consistent twoPuts_ready (by decide +kernel) hs snap hsnap

/-- The snapshot at index 1 holds the write of the command with index 2. -/
theorem snapshot_ahead_of_index :
    twoPuts.Ready ∧ ∃ snap, twoPuts.taken racingRun = [snap] ∧ snap.index = 1 ∧
      newMVCCKey [0x02, 0x62] ∈ snap.data.map Prod.fst ∧ ¬ twoPuts.Consistent snap := by
  have hone : (twoPuts.taken racingRun).length = 1 := by decide +kernel
  have hread : ∀ snap ∈ twoPuts.taken racingRun, snap.index = 1 ∧
      newMVCCKey [0x02, 0x62] ∈ snap.data.map Prod.fst := by decide +kernel
  have hfirst : newMVCCKey [0x02, 0x62] ∉ (rangeContent 4
      (twoPuts.replay (twoPuts.todo.filter fun cmd => cmd.index ≤ 1)).2).map Prod.fst := by
    decide +kernel
  obtain ⟨snap, hsnap⟩ := List.length_eq_one_iff.mp hone
  obtain ⟨hindex, hmem⟩ := hread snap (by simp [hsnap])
  refine ⟨twoPuts_ready, snap, hsnap, hindex, hmem, fun hcut => hfirst ?_⟩
  rw [CutState.Consistent, hindex] at hcut
  exact hcut ▸ hmem

end Shipped

end Ancestor
