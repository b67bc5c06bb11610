import Ancestor.Oracle

/-!
Timestamps of one term: no two calls of `getTimestamp` return the same one, and a call that
starts after another has returned gets a later one.

Two calls on one object differ by its counter, as long as the counter does not overflow. Calls
on different objects differ by the wall time, and a server never goes back to an object it has
replaced.
-/

namespace Ancestor.Oracle

/-! ### Steps of calls -/

/-- The object whose counter an action increments. -/
def State.incremented (σ : State) : Action → Option ℕ
  | .call (.add c) =>
    match σ.calls[c]? with
    | some ⟨_, .loaded _ cur⟩ => some cur
    | _ => none
  | _ => none

/-- The counter an action increments has not reached its greatest value: the increment is not
the `2 ^ 31`st of the object. -/
def NoWrap (σ : State) (a : Action) : Prop :=
  ∀ cur ∈ σ.incremented a, σ.logical cur ≠ Int32.maxValue

instance (σ : State) (a : Action) : Decidable (NoWrap σ a) :=
  inferInstanceAs (Decidable (∀ cur ∈ σ.incremented a, σ.logical cur ≠ Int32.maxValue))

inductive CallEffect (σ : State) : CallAction → State → Prop
  | start (s : ServerID) : CallEffect σ (.start s) { σ with calls := σ.calls ++ [⟨s, .turn 0⟩] }
  /-- there is no object yet, or the turns are used up -/
  | miss {c : ℕ} {s : ServerID} {i : ℕ} {state : CallState}
      (h : σ.calls[c]? = some ⟨s, .turn i⟩)
      (hstate : state = .turn (i + 1) ∨ state = .failed) :
      CallEffect σ (.load c) (σ.setCall c ⟨s, state⟩)
  | load {c : ℕ} {s : ServerID} {i cur : ℕ} (h : σ.calls[c]? = some ⟨s, .turn i⟩)
      (hts : (σ.cluster.servers s).ts = some cur) :
      CallEffect σ (.load c) (σ.setCall c ⟨s, .loaded i cur⟩)
  | add {c : ℕ} {s : ServerID} {i cur : ℕ} {obj : AtomicObject} {state : CallState}
      (h : σ.calls[c]? = some ⟨s, .loaded i cur⟩)
      (hobj : σ.cluster.objects[cur]? = some obj)
      (hstate : state = .turn (i + 1) ∨
        state = .done cur ⟨millis obj.wallTime, σ.logical cur + 1⟩ σ.calls.length) :
      CallEffect σ (.add c) (State.setCall
        { σ with logical := Function.update σ.logical cur (σ.logical cur + 1) } c ⟨s, state⟩)

theorem stepCall_effect {σ σ' : State} {a : CallAction} (h : σ.stepCall a = some σ') :
    CallEffect σ a σ' := by
  cases a with
  | start s =>
    cases h
    exact .start s
  | load c =>
    simp only [State.stepCall] at h
    split at h
    · rename_i s i hc
      split_ifs at h with hi
      · split at h
        · cases h
          exact .miss hc (.inl rfl)
        · rename_i cur hts
          cases h
          exact .load hc hts
      · cases h
        exact .miss hc (.inr rfl)
    · cases h
  | add c =>
    simp only [State.stepCall] at h
    split at h
    · rename_i s i cur hc
      split at h
      · rename_i obj hobj
        split_ifs at h with hmax
        · cases h
          exact .add hc hobj (.inl rfl)
        · cases h
          exact .add hc hobj (.inr rfl)
      · cases h
    · cases h

/-- The `i`-th call, on the server `s`, stands at `state`. -/
def State.At (σ : State) (i : ℕ) (s : ServerID) (state : CallState) : Prop :=
  σ.calls[i]? = some ⟨s, state⟩

section At

variable {σ σ' : State} {i c : ℕ} {s s' : ServerID} {state state' : CallState}

lemma State.At.lt (h : σ.At i s state) : i < σ.calls.length := (List.getElem?_eq_some_iff.mp h).1

lemma State.At.of_append (hcalls : σ'.calls = σ.calls ++ [⟨s, .turn 0⟩])
    (h : σ'.At i s' state) : σ.At i s' state ∨ state = .turn 0 := by
  rw [State.At, hcalls] at h
  rcases Nat.lt_or_ge i σ.calls.length with hlt | hge
  · exact .inl ((List.getElem?_append_left hlt).symm.trans h)
  · have hlt := (List.getElem?_eq_some_iff.mp h).1
    simp only [List.length_append, List.length_singleton] at hlt
    obtain rfl : i = σ.calls.length := by omega
    rw [List.getElem?_concat_length] at h
    cases h
    exact .inr rfl

lemma State.At.of_set (hc : σ.At c s state) (hcalls : σ'.calls = σ.calls.set c ⟨s, state'⟩)
    {st : CallState} (h : σ'.At i s' st) :
    i = c ∧ s' = s ∧ st = state' ∨ i ≠ c ∧ σ.At i s' st := by
  rw [State.At, hcalls] at h
  by_cases hic : i = c
  · subst hic
    rw [List.getElem?_set_self hc.lt] at h
    cases h
    exact .inl ⟨rfl, rfl, rfl⟩
  · rw [List.getElem?_set_ne (Ne.symm hic)] at h
    exact .inr ⟨hic, h⟩

end At

/-! ### What a call may rely on -/

/-- The object of a call is one its server has stored, and not newer than the current one. -/
def Holds (κ : Cluster) (s : ServerID) (cur : ℕ) (obj : AtomicObject) : Prop :=
  κ.objects[cur]? = some obj ∧ obj.server = s ∧ ∃ o, (κ.servers s).ts = some o ∧ cur ≤ o

def CallSound (σ : State) (s : ServerID) : CallState → Prop
  | .turn _ | .failed => True
  | .loaded _ cur => ∃ obj, Holds σ.cluster s cur obj
  | .done cur ts started =>
    (∃ obj, Holds σ.cluster s cur obj ∧ ts.wallTime = millis obj.wallTime) ∧
      0 < ts.logical ∧ ts.logical ≤ σ.logical cur ∧ started ≤ σ.calls.length

/-- A call that started after the answer `ts` was given on the object `cur`. -/
def After (cur : ℕ) (ts : Timestamp) : CallState → Prop
  | .turn _ | .failed => True
  | .loaded _ cur' => cur ≤ cur'
  | .done cur' ts' _ => cur < cur' ∨ cur = cur' ∧ ts.logical < ts'.logical

structure CallsWf (σ : State) : Prop where
  cluster : Wf σ.cluster
  counter : ∀ o, 0 ≤ σ.logical o
  call : ∀ {i s state}, σ.At i s state → CallSound σ s state
  distinct : ∀ {i j s s' cur ts ts' m m'}, σ.At i s (.done cur ts m) →
    σ.At j s' (.done cur ts' m') → i ≠ j → ts.logical ≠ ts'.logical
  after : ∀ {i j s cur ts m state}, σ.At i s (.done cur ts m) → σ.At j s state → m ≤ j →
    After cur ts state

section CallsWf

variable {T : Int64} {κ κ' : Cluster} {σ σ' : State}

lemma Effect.getElem? (hstep : Effect T κ κ') {cur : ℕ} {obj : AtomicObject}
    (h : κ.objects[cur]? = some obj) : κ'.objects[cur]? = some obj := by
  cases hstep with
  | tick hnow => exact h
  | expire => exact h
  | campaign hidle hfree => exact h
  | turn hturn => exact h
  | put hphase hmaster => exact h
  | store hphase => exact (Cluster.UpdatesTo.storeObject κ _ _).getElem? h

/-- A step of the cluster only adds objects, and moves servers on to newer ones. -/
lemma Holds.step {s : ServerID} {cur : ℕ} {obj : AtomicObject} (hstep : Effect T κ κ')
    (h : Holds κ s cur obj) : Holds κ' s cur obj := by
  obtain ⟨hget, hserver, o, ho, hle⟩ := h
  have hlt : cur < κ.objects.length := (List.getElem?_eq_some_iff.mp hget).1
  -- a step of one server: only its own object may change, to one that is new
  have key : ∀ {s' server l}, κ.UpdatesTo s' server l κ' →
      server.ts = (κ.servers s').ts ∨ server.ts = some κ.objects.length →
        Holds κ' s cur obj := by
    intro s' server l hup hts
    refine ⟨hup.getElem? hget, hserver, ?_⟩
    by_cases hs : s = s'
    · subst hs
      rw [hup.self]
      rcases hts with hts | hts
      · exact ⟨o, hts.trans ho, hle⟩
      · exact ⟨κ.objects.length, hts, hlt.le⟩
    · rw [hup.of_ne hs]
      exact ⟨o, ho, hle⟩
  cases hstep with
  | tick hnow => exact ⟨hget, hserver, o, ho, hle⟩
  | expire => exact ⟨hget, hserver, o, ho, hle⟩
  | campaign hidle hfree => exact key (.elect κ _) (.inl rfl)
  | turn hturn => exact key (.setPhase κ _ _) (.inl rfl)
  | put hphase hmaster => exact key (.saveTime κ _ _) (.inl rfl)
  | store hphase => exact key (.storeObject κ _ _) (.inr rfl)

lemma CallsWf.master (h : CallsWf σ) (hstep : Effect T σ.cluster κ') :
    CallsWf { σ with cluster := κ' } where
  cluster := h.cluster.step hstep
  counter := h.counter
  call {i s state} hc := by
    have hs := h.call hc
    cases state with
    | turn i => trivial
    | failed => trivial
    | loaded i cur =>
      obtain ⟨obj, hobj⟩ := hs
      exact ⟨obj, hobj.step hstep⟩
    | done cur ts m =>
      obtain ⟨⟨obj, hobj, hwall⟩, hrest⟩ := hs
      exact ⟨⟨obj, hobj.step hstep, hwall⟩, hrest⟩
  distinct := h.distinct
  after := h.after

lemma CallSound.mono {s : ServerID} {state : CallState} (h : CallSound σ s state)
    (hcluster : σ'.cluster = σ.cluster) (hlog : ∀ o, σ.logical o ≤ σ'.logical o)
    (hlen : σ.calls.length ≤ σ'.calls.length) : CallSound σ' s state := by
  cases state with
  | turn i => trivial
  | failed => trivial
  | loaded i cur =>
    show ∃ obj, Holds σ'.cluster s cur obj
    rw [hcluster]
    exact h
  | done cur ts m =>
    obtain ⟨hobj, hpos, hle, hm⟩ := h
    exact ⟨hcluster ▸ hobj, hpos, Int32.le_trans hle (hlog cur), hm.trans hlen⟩

lemma CallsWf.start (h : CallsWf σ) (s : ServerID) :
    CallsWf { σ with calls := σ.calls ++ [⟨s, .turn 0⟩] } := by
  have hdone : ∀ {i s' cur ts m},
      State.At { σ with calls := σ.calls ++ [⟨s, .turn 0⟩] } i s' (.done cur ts m) →
        σ.At i s' (.done cur ts m) := fun hi => (hi.of_append rfl).resolve_right (by simp)
  refine ⟨h.cluster, h.counter, fun hi => ?_, fun hi hj => h.distinct (hdone hi) (hdone hj),
    fun hi hj hle => ?_⟩
  · rcases hi.of_append rfl with hi | rfl
    · exact (h.call hi).mono rfl (fun _ => Int32.le_refl _) (by simp)
    · trivial
  · rcases hj.of_append rfl with hj | rfl
    · exact h.after (hdone hi) hj hle
    · trivial

/-- A call that goes on keeps the invariant when its own part of it is kept; a call that
returns has counted higher than those before it. -/
lemma CallsWf.set (h : CallsWf σ) {logical : ℕ → Int32} {c : ℕ} {s : ServerID}
    {state state' : CallState} (hc : σ.At c s state)
    (hlog : ∀ o, σ.logical o ≤ logical o)
    (hsound : CallSound { σ with logical, calls := σ.calls.set c ⟨s, state'⟩ } s state')
    (hdone : ∀ cur ts m, state' = .done cur ts m → m = σ.calls.length ∧
      ∀ i s' ts' m', σ.At i s' (.done cur ts' m') → ts'.logical < ts.logical)
    (hafter : ∀ i cur ts m, σ.At i s (.done cur ts m) → m ≤ c → After cur ts state') :
    CallsWf { σ with logical, calls := σ.calls.set c ⟨s, state'⟩ } := by
  refine ⟨h.cluster, fun o => Int32.le_trans (h.counter o) (hlog o), fun hi => ?_,
    fun hi hj hne => ?_, fun hi hj hle => ?_⟩
  · obtain ⟨-, rfl, rfl⟩ | ⟨-, hi'⟩ := hc.of_set rfl hi
    · exact hsound
    · exact (h.call hi').mono rfl hlog (by simp)
  · obtain ⟨hic, -, hst⟩ | ⟨-, hi'⟩ := hc.of_set rfl hi
    · obtain ⟨hjc, -, -⟩ | ⟨-, hj'⟩ := hc.of_set rfl hj
      · exact absurd (hic.trans hjc.symm) hne
      · exact (Int32.ne_of_lt ((hdone _ _ _ hst.symm).2 _ _ _ _ hj')).symm
    · obtain ⟨-, -, hst⟩ | ⟨-, hj'⟩ := hc.of_set rfl hj
      · exact Int32.ne_of_lt ((hdone _ _ _ hst.symm).2 _ _ _ _ hi')
      · exact h.distinct hi' hj' hne
  · obtain ⟨-, -, hst⟩ | ⟨-, hi'⟩ := hc.of_set rfl hi
    · -- nothing has started since the call returned
      have hlt := hj.lt
      rw [(hdone _ _ _ hst.symm).1] at hle
      simp only [List.length_set] at hlt
      omega
    · obtain ⟨hjc, hs, hst⟩ | ⟨-, hj'⟩ := hc.of_set rfl hj
      · rw [hst]
        exact hafter _ _ _ _ (hs ▸ hi') (hjc ▸ hle)
      · exact h.after hi' hj' hle

lemma lt_succ_of_ne_max {n : Int32} (h : n ≠ Int32.maxValue) : n < n + 1 := by
  grind

/-- **Every step of a call keeps the answers apart and in order.** -/
theorem CallsWf.stepCall (h : CallsWf σ) {a : CallAction} (hwrap : NoWrap σ (.call a))
    (hstep : CallEffect σ a σ') : CallsWf σ' := by
  cases hstep with
  | start s => exact h.start s
  | @miss c s i state hc hstate =>
    have hnot : ∀ cur ts m, state ≠ .done cur ts m := fun cur ts m heq => by
      rcases hstate with rfl | rfl <;> cases heq
    refine h.set hc (fun _ => Int32.le_refl _) ?_ (fun _ _ _ heq => absurd heq (hnot _ _ _)) ?_
    · rcases hstate with rfl | rfl <;> trivial
    · rcases hstate with rfl | rfl <;> exact fun _ _ _ _ _ _ => trivial
  | load hc hts =>
    obtain ⟨obj, hget, hserver⟩ := h.cluster.held _ _ hts
    refine h.set hc (fun _ => Int32.le_refl _) ⟨obj, hget, hserver, _, hts, le_rfl⟩
      (fun _ _ _ heq => by cases heq) fun i cur ts m hi _ => ?_
    -- the server still holds the object of the earlier call, or a newer one
    obtain ⟨obj', ⟨-, -, o, ho, hle⟩, -⟩ := (h.call hi).1
    rw [hts] at ho
    cases ho
    exact hle
  | @add c s i cur obj state hc hobj hstate =>
    have hlt := lt_succ_of_ne_max (hwrap cur (by simp [State.incremented, hc]))
    have hlog : ∀ o, σ.logical o ≤ Function.update σ.logical cur (σ.logical cur + 1) o := by
      intro o
      by_cases ho : o = cur
      · subst ho
        rw [Function.update_self]
        exact Int32.le_of_lt hlt
      · rw [Function.update_of_ne ho]
        exact Int32.le_refl _
    obtain ⟨obj', hholds⟩ := h.call hc
    obtain rfl : obj' = obj := Option.some_inj.mp (hholds.1.symm.trans hobj)
    -- the earlier calls on the object have counted up to its counter
    have hbelow : ∀ i s' ts' m', σ.At i s' (.done cur ts' m') →
        ts'.logical < σ.logical cur + 1 := fun i s' ts' m' hi =>
      Int32.lt_of_le_of_lt (h.call hi).2.2.1 hlt
    rcases hstate with rfl | rfl
    · exact h.set hc hlog trivial (fun _ _ _ heq => by cases heq) fun _ _ _ _ _ _ => trivial
    · refine h.set hc hlog ⟨⟨obj', hholds, rfl⟩, ?_, ?_, by simp⟩ (fun cur' ts m heq => ?_)
        fun i cur' ts m hi hle => ?_
      · exact Int32.lt_of_le_of_lt (h.counter cur) hlt
      · simp
      · cases heq
        exact ⟨rfl, hbelow⟩
      · rcases (show cur' ≤ cur from h.after hi hc hle).lt_or_eq with hcur | rfl
        · exact .inl hcur
        · exact .inr ⟨rfl, hbelow i s ts m hi⟩

theorem CallsWf.step (h : CallsWf σ) {a : Action} (hwrap : NoWrap σ a)
    (hstep : σ.step T a = some σ') : CallsWf σ' := by
  cases a with
  | master a =>
    obtain ⟨κ', hκ, rfl⟩ := Option.map_eq_some_iff.mp hstep
    exact h.master (step_effect hκ)
  | call a => exact h.stepCall hwrap (stepCall_effect hstep)

lemma callsWf_init : CallsWf init where
  cluster := wf_init
  counter _ := Int32.le_refl 0
  call h := by cases h
  distinct h := by cases h
  after h := by cases h

end CallsWf

/-! ### The answers of one term -/

/-- The term an object was stored in. -/
def State.termOf (σ : State) (cur : ℕ) : Option ℕ := (σ.cluster.objects[cur]?).map (·.term)

/-- No two answers of a server's term are equal, and an answer given before another call
started is less than the answer of that call. -/
def Ordered (σ : State) : Prop :=
  ∀ i j s cur cur' ts ts' m m', σ.At i s (.done cur ts m) → σ.At j s (.done cur' ts' m') →
    σ.termOf cur = σ.termOf cur' → (i ≠ j → ts ≠ ts') ∧ (m ≤ j → ts.less ts' = true)

lemma millis_lt {w w' : Int64} (hpos : 0 < w.toInt) (h : w.toInt + 1000000 ≤ w'.toInt) :
    millis w < millis w' := by
  rw [Int64.lt_iff_toInt_lt, millis_of_nonneg hpos.le, millis_of_nonneg (by omega)]
  omega

/-- A later object of a term shows a later millisecond. -/
lemma Wf.millis_lt {κ : Cluster} (h : Wf κ) {cur cur' : ℕ} {obj obj' : AtomicObject}
    (hget : κ.objects[cur]? = some obj) (hget' : κ.objects[cur']? = some obj')
    (hserver : obj.server = obj'.server) (hterm : obj.term = obj'.term) (hlt : cur < cur') :
    millis obj.wallTime < millis obj'.wallTime := by
  obtain ⟨hi, rfl⟩ := List.getElem?_eq_some_iff.mp hget
  obtain ⟨hj, rfl⟩ := List.getElem?_eq_some_iff.mp hget'
  have hbelow := List.pairwise_iff_getElem.mp h.sorted cur cur' hi hj hlt hserver hterm
  exact Oracle.millis_lt (h.object _ (List.getElem_mem hi)).1 hbelow

lemma less_of_wallTime_lt {ts ts' : Timestamp} (h : ts.wallTime < ts'.wallTime) :
    ts.less ts' = true := (Timestamp.less_iff ts ts').mpr ((Timestamp.lt_iff ts ts').mpr (.inl h))

/-- **Timestamps of a term are unique and in the order of real time**, for every interleaving
of calls with the replacement of the object and with other servers. -/
theorem timestamps_ordered (T : Int64) {l : List Action} {σ : State}
    (hrun : Steps.run (State.step T) init l = some σ)
    (hwrap : Steps.Along (State.step T) NoWrap init l) : Ordered σ := by
  have h : CallsWf σ := Steps.invariant (fun _ _ _ h hw hs => h.step hw hs) callsWf_init hwrap hrun
  intro i j s cur cur' ts ts' m m' hi hj hterm
  obtain ⟨⟨obj, ⟨hget, hserver, -⟩, hwall⟩, -⟩ := h.call hi
  obtain ⟨⟨obj', ⟨hget', hserver', -⟩, hwall'⟩, -⟩ := h.call hj
  have hsame : obj.term = obj'.term := by
    rw [State.termOf, State.termOf, hget, hget'] at hterm
    exact Option.some_inj.mp hterm
  have hlater : cur < cur' → ts.wallTime < ts'.wallTime := by
    rw [hwall, hwall']
    exact h.cluster.millis_lt hget hget' (hserver.trans hserver'.symm) hsame
  refine ⟨fun hne heq => ?_, fun hle => ?_⟩
  · subst heq
    rcases lt_trichotomy cur cur' with hlt | rfl | hgt
    · exact Int64.lt_irrefl (hlater hlt)
    · exact h.distinct hi hj hne rfl
    · refine Int64.lt_irrefl (?_ : ts.wallTime < ts.wallTime)
      nth_rewrite 1 [hwall']
      rw [hwall]
      exact h.cluster.millis_lt hget' hget (hserver'.trans hserver.symm) hsame.symm hgt
  · rcases (show cur < cur' ∨ cur = cur' ∧ ts.logical < ts'.logical from
      h.after hi hj hle) with hlt | ⟨rfl, hlog⟩
    · exact less_of_wallTime_lt (hlater hlt)
    · have hobj : obj = obj' := Option.some_inj.mp (hget.symm.trans hget')
      rw [Timestamp.less_iff, Timestamp.lt_iff, hwall, hwall', hobj]
      exact .inr ⟨rfl, hlog⟩

/-- Three calls on the first master, with the object replaced under the second one. -/
def threeCalls : List Action :=
  [.master (.tick 1700000000000000000), .master (.campaign 0), .master (.loadTimestampFromDB 0),
    .master (.loadTimestamp 0), .master (.saveTimestampToDB 0), .master (.store 0),
    .call (.start 0), .call (.load 0), .call (.start 0), .call (.load 1), .call (.add 0),
    .master (.tick 1700000000050000000), .master (.saveTimestamp 0), .master (.store 0),
    .call (.start 0), .call (.load 2), .call (.add 2), .call (.add 1)]

theorem timestamps_ordered_threeCalls :
    ∃ σ, Steps.run (State.step 2000) init threeCalls = some σ ∧
      Steps.Along (State.step 2000) NoWrap init threeCalls ∧
      σ.calls = [⟨0, .done 0 ⟨1700000000000, 1⟩ 2⟩, ⟨0, .done 0 ⟨1700000000000, 2⟩ 3⟩,
        ⟨0, .done 1 ⟨1700000000050, 1⟩ 3⟩] ∧ Ordered σ := by
  have hwrap : Steps.Along (State.step 2000) NoWrap init threeCalls := by decide +kernel
  have hcalls : (Steps.run (State.step 2000) init threeCalls).map (·.calls) =
      some [⟨0, .done 0 ⟨1700000000000, 1⟩ 2⟩, ⟨0, .done 0 ⟨1700000000000, 2⟩ 3⟩,
        ⟨0, .done 1 ⟨1700000000050, 1⟩ 3⟩] := by decide +kernel
  obtain ⟨σ, hrun, hσ⟩ := Option.map_eq_some_iff.mp hcalls
  exact ⟨σ, hrun, hwrap, hσ, timestamps_ordered 2000 hrun hwrap⟩

end Ancestor.Oracle
