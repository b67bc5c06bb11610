import Ancestor.ProtocolInv

/-!
A transaction has one commit timestamp, on every engine.

This rests on the end request being applied in time. When a reader pushes the record past
the drawn timestamp first, `MVCCPutTxn` keeps the larger timestamp in the record without a
word, while the client goes on to resolve its intents at the smaller one.
-/

namespace Ancestor.Protocol

open Steps

variable {s s₀ s₁ s₂ : Sys} {a : Act} {l l₁ l₂ : List Act}

/-! ### Schedules -/

namespace Schedule

def key : Key := [2, 97]
def t₁ : Key := [1, 49]
def t₂ : Key := [1, 50]
def t₃ : Key := [1, 51]

def tick (n : Int64) : Timestamp := ⟨n, 0⟩

/-- The record of a transaction that started at `start`. -/
def record (id : Key) (start : Int64) (status : TransactionStatus) (ts : Timestamp) : Transaction :=
  { id, status, timestamp := ts, lastHeartbeat := start }

/-- The transaction `id` stands in the way of a read of `k` by `pusher`. -/
def conflict (k id pusher : Key) (start : Int64) : WriteIntentError :=
  newWriteIntentError (record pusher start .pending (tick start)) .pushTimestamp id k

/-- One transaction writes, commits and has its intent resolved. -/
def single : List Act :=
  [.start t₁ 0 (tick 10), .beginTxn t₁, .put t₁ key { bytes := [7] }, .commit t₁ (tick 20),
    .endTxn t₁, .resolve key (record t₁ 10 .committed (tick 20))]

/-- `t₁` reads and writes and draws its commit timestamp. Before its end request is applied,
the reader `t₂` pushes the record past that timestamp. -/
def pushRace : List Act :=
  [.start t₁ 0 (tick 10), .beginTxn t₁, .get t₁ key, .put t₁ key { bytes := [7] },
    .commit t₁ (tick 20), .start t₃ 0 (tick 22), .beginTxn t₃, .start t₂ 0 (tick 25),
    .beginTxn t₂, .get t₂ key, .push (conflict key t₁ t₂ 25) (tick 26),
    .resolve key (record t₁ 10 .pending ⟨25, 1⟩), .get t₂ key, .endTxn t₁,
    .resolve key (record t₁ 10 .committed (tick 20))]

end Schedule

/-! ### One commit timestamp -/

/-- **One commit timestamp.** Along a run in which every commit is applied in time, an intent
that is resolved as committed is resolved at the timestamp of the stored, committed record,
and the record has never had a larger one. -/
theorem one_commit_timestamp [Backend] (h0 : Init s₀) (hin : Along step InTime s₀ l)
    (hrun : run step s₀ l = some s) {key : Key} {txn : Transaction} (hres : .resolve key txn ∈ l)
    (hst : txn.status = .committed) :
    (∃ r, recAt s.st.eng txn.id = some r ∧ r.status = .committed ∧
      r.timestamp = txn.timestamp) ∧
    ∀ l₁ l₂ s₁ r₁, l = l₁ ++ l₂ → run step s₀ l₁ = some s₁ → recAt s₁.st.eng txn.id = some r₁ →
      r₁.timestamp ≤ txn.timestamp := by
  -- the record the intent is resolved with was handed out before, and still is what it was
  obtain ⟨l₁, l₂, rfl⟩ := List.append_of_mem hres
  obtain ⟨s₁, h₁, h₂⟩ := run_append.mp hrun
  obtain ⟨hin₁, hin₂⟩ := along_append h₁ hin
  obtain ⟨hc₁, -⟩ := h0.told.run (fun _ _ h => h) hin₁ h₁
  obtain ⟨-, hl₂⟩ := hc₁.run (fun _ _ h => h) hin₂ h₂
  have hmem : txn ∈ s₁.handed := by
    obtain ⟨s₁', hstep, -⟩ := run_cons.mp h₂
    by_contra hno
    simp [step, hno] at hstep
  obtain ⟨hid, -, r, hr, -, hdec, hts⟩ := (hc₁.handed txn hmem).later hl₂
  refine ⟨⟨r, hr, (hdec (by simp [hst])).trans hst, hts hst⟩, fun l₁' l₂' s' r' hl h' hr' => ?_⟩
  rw [hl] at hrun hin
  obtain ⟨s'', h'', hrest⟩ := run_append.mp hrun
  obtain rfl : s' = s'' := Option.some.inj (h'.symm.trans h'')
  obtain ⟨hin', hin''⟩ := along_append h' hin
  obtain ⟨hc', -⟩ := h0.told.run (fun _ _ h => h) hin' h'
  obtain ⟨-, hl'⟩ := hc'.run (fun _ _ h => h) hin'' hrest
  obtain ⟨r'', hr'', hle, -⟩ := hl'.record txn.id r' hid hr'
  rw [hr, Option.some.injEq] at hr''
  exact hle.trans (hr'' ▸ (hts hst).le)

section Traces

attribute [local instance] Slices.twoItems Backend.badger

theorem one_commit_timestamp_single : ∃ s, run step {} Schedule.single = some s ∧
    ∃ r, recAt s.st.eng Schedule.t₁ = some r ∧ r.status = .committed ∧
      r.timestamp = Schedule.tick 20 := by
  obtain ⟨s, hs⟩ := Option.isSome_iff_exists.mp
    (by decide +kernel : (run step {} Schedule.single).isSome)
  have hres : .resolve Schedule.key (Schedule.record Schedule.t₁ 10 .committed (Schedule.tick 20)) ∈
      Schedule.single := by decide
  exact ⟨s, hs, (one_commit_timestamp init_empty (by decide +kernel) hs hres rfl).1⟩

/-- The intent is resolved as committed at 20, and the record says 25 and one logical tick. -/
theorem commit_timestamp_split :
    .resolve Schedule.key (Schedule.record Schedule.t₁ 10 .committed (Schedule.tick 20)) ∈
      Schedule.pushRace ∧
    ∃ s, run step {} Schedule.pushRace = some s ∧ recAt s.st.eng Schedule.t₁ =
      some (Schedule.record Schedule.t₁ 10 .committed ⟨25, 1⟩) := by
  refine ⟨by decide, Option.map_eq_some_iff.mp (?_ : (run step {} Schedule.pushRace).map
    (fun s => recAt s.st.eng Schedule.t₁) = _)⟩
  decide +kernel

end Traces

end Ancestor.Protocol
