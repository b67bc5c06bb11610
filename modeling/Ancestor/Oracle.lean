import Ancestor.Timestamp
import Ancestor.Lib.Steps

/-!
The timestamp oracle of the placement driver (`pd/ts.go`, `pd/master.go`).

The servers share a clock and a store, etcd. One server at a time holds the master key; it
loads the time saved last, waits, saves its own time and then serves timestamps from an object
in memory, which it replaces as time goes on. A server that has lost the key goes on serving
until it finds out.

A `getTimestamp` call is a load of the current object and an atomic increment of its counter,
and anything may happen in between.
-/

namespace Ancestor.Oracle

abbrev ServerID := ℕ

def maxRetryNum : ℕ := 100
def maxLogical : Int32 := 262144

/-- `Time.Sub`, which stops at the bounds of a duration. -/
def timeSub (t u : Int64) : Int64 := .ofIntClamp (t.toInt - u.toInt)

/-- Nanoseconds to milliseconds, as the code divides them. -/
def millis (d : Int64) : Int64 := d / 1000000

/-- An `atomicObject` without its counter, with the server that stored it and the term it
stored it in. -/
structure AtomicObject where
  wallTime : Int64
  server : ServerID
  term : ℕ
  deriving DecidableEq, Repr

/-- Where the goroutine of `masterLoop` stands. -/
inductive Phase
  | idle
  /-- the campaign is won, `loadTimestamp` comes next -/
  | elected
  /-- in the loop of `loadTimestamp`, with the time read from etcd -/
  | loading (lastSavedTime : Int64)
  /-- before `saveTimestampToDB`, in `loadTimestamp` -/
  | loadPut (nowTime : Int64)
  /-- before `saveTimestampToDB`, in `saveTimestamp` -/
  | savePut (nowTime : Int64)
  /-- before the new object is stored -/
  | storing (nowTime : Int64)
  | serving
  deriving DecidableEq, Repr

/-- `ts` is the number of the object the server holds; `term` counts campaigns. -/
structure Server where
  phase : Phase := .idle
  term : ℕ := 0
  lastSavedTime : Int64 := 0
  ts : Option ℕ := none
  deriving DecidableEq, Repr

/-- The clock, the two keys of etcd, the servers, and all objects ever stored. -/
structure Cluster where
  now : Int64
  master : Option ServerID := none
  saved : Option Int64 := none
  terms : ℕ := 0
  servers : ServerID → Server := fun _ => {}
  objects : List AtomicObject := []

namespace Cluster

def loadTimestampFromDB (κ : Cluster) : Int64 := κ.saved.getD 0

def setPhase (κ : Cluster) (s : ServerID) (phase : Phase) : Cluster :=
  { κ with servers := Function.update κ.servers s { κ.servers s with phase } }

/-- The campaign of `s` is won. -/
def elect (κ : Cluster) (s : ServerID) : Cluster :=
  { κ with
    master := some s
    terms := κ.terms + 1
    servers := Function.update κ.servers s
      { κ.servers s with phase := .elected, term := κ.terms + 1 } }

/-- The put of `saveTimestampToDB` has gone through. -/
def saveTime (κ : Cluster) (s : ServerID) (nowTime : Int64) : Cluster :=
  { κ with
    saved := some nowTime
    servers := Function.update κ.servers s
      { κ.servers s with phase := .storing nowTime, lastSavedTime := nowTime } }

/-- `s.ts.Store` of a new object. -/
def storeObject (κ : Cluster) (s : ServerID) (nowTime : Int64) : Cluster :=
  { κ with
    objects := κ.objects ++ [⟨nowTime, s, (κ.servers s).term⟩]
    servers := Function.update κ.servers s
      { κ.servers s with phase := .serving, ts := some κ.objects.length } }

end Cluster

/-- One turn of the loop of `loadTimestamp`: an error, another wait, or the time to save. -/
def loadTurn (T now lastSavedTime : Int64) : Phase :=
  let elapsed := millis (now - lastSavedTime)
  if elapsed ≤ 0 then .idle
  else if 2 * T - elapsed > 0 then .loading lastSavedTime
  else .loadPut now

/-- The decision of `saveTimestamp`: leave the object, save first, or store a new one. -/
def saveTurn (T now prev lastSavedTime : Int64) : Phase :=
  if millis (timeSub now prev) ≤ 0 then .serving
  else if millis (timeSub now lastSavedTime) > T then .savePut now
  else .storing now

inductive MasterAction
  /-- the clock goes on to a reading -/
  | tick (now : Int64)
  /-- the lease of the master key runs out -/
  | expire
  | campaign (s : ServerID)
  | loadTimestampFromDB (s : ServerID)
  | loadTimestamp (s : ServerID)
  | saveTimestampToDB (s : ServerID)
  | store (s : ServerID)
  | saveTimestamp (s : ServerID)
  /-- an error, a lost lease or a stop ends the term on the server itself -/
  | leave (s : ServerID)
  deriving DecidableEq, Repr

-- The compare of the put is on the value of the master key, which names the server.
def Cluster.step (T : Int64) (κ : Cluster) : MasterAction → Option Cluster
  | .tick now => if κ.now ≤ now then some { κ with now } else none
  | .expire => some { κ with master := none }
  | .campaign s =>
    if (κ.servers s).phase = .idle ∧ (κ.master = none ∨ κ.master = some s) then some (κ.elect s)
    else none
  | .loadTimestampFromDB s =>
    match (κ.servers s).phase with
    | .elected => some (κ.setPhase s (.loading κ.loadTimestampFromDB))
    | _ => none
  | .loadTimestamp s =>
    match (κ.servers s).phase with
    | .loading lastSavedTime => some (κ.setPhase s (loadTurn T κ.now lastSavedTime))
    | _ => none
  | .saveTimestampToDB s =>
    match (κ.servers s).phase with
    | .loadPut nowTime | .savePut nowTime =>
      some (if κ.master = some s then κ.saveTime s nowTime else κ.setPhase s .idle)
    | _ => none
  | .store s =>
    match (κ.servers s).phase with
    | .storing nowTime => some (κ.storeObject s nowTime)
    | _ => none
  | .saveTimestamp s =>
    match (κ.servers s).phase, (κ.servers s).ts.bind (κ.objects[·]?) with
    | .serving, some prev =>
      some (κ.setPhase s (saveTurn T κ.now prev.wallTime (κ.servers s).lastSavedTime))
    | _, _ => none
  | .leave s => some (κ.setPhase s .idle)

/-! ### Calls -/

inductive CallState
  /-- at the head of the loop, for the `i`-th time -/
  | turn (i : ℕ)
  | loaded (i cur : ℕ)
  /-- the object, the answer, and how many calls had started when it was given -/
  | done (cur : ℕ) (ts : Timestamp) (started : ℕ)
  | failed
  deriving DecidableEq, Repr

structure Call where
  server : ServerID
  state : CallState
  deriving DecidableEq, Repr

inductive CallAction
  | start (s : ServerID)
  | load (c : ℕ)
  | add (c : ℕ)
  deriving DecidableEq, Repr

/-- The cluster, the counter of each object, and the calls of `getTimestamp` in the order in
which they started. -/
structure State where
  cluster : Cluster
  logical : ℕ → Int32 := fun _ => 0
  calls : List Call := []

namespace State

def setCall (σ : State) (c : ℕ) (call : Call) : State := { σ with calls := σ.calls.set c call }

def stepCall (σ : State) : CallAction → Option State
  | .start s => some { σ with calls := σ.calls ++ [⟨s, .turn 0⟩] }
  | .load c =>
    match σ.calls[c]? with
    | some ⟨s, .turn i⟩ =>
      if i < maxRetryNum then
        match (σ.cluster.servers s).ts with
        | none => some (σ.setCall c ⟨s, .turn (i + 1)⟩)
        | some cur => some (σ.setCall c ⟨s, .loaded i cur⟩)
      else some (σ.setCall c ⟨s, .failed⟩)
    | _ => none
  | .add c =>
    match σ.calls[c]? with
    | some ⟨s, .loaded i cur⟩ =>
      match σ.cluster.objects[cur]? with
      | some obj =>
        let ts : Timestamp := ⟨millis obj.wallTime, σ.logical cur + 1⟩
        let σ := { σ with logical := Function.update σ.logical cur ts.logical }
        if ts.logical ≥ maxLogical then some (σ.setCall c ⟨s, .turn (i + 1)⟩)
        else some (σ.setCall c ⟨s, .done cur ts σ.calls.length⟩)
      | none => none
    | _ => none

end State

inductive Action
  | master (a : MasterAction)
  | call (a : CallAction)
  deriving DecidableEq, Repr

def State.step (T : Int64) (σ : State) : Action → Option State
  | .master a => (σ.cluster.step T a).map fun cluster => { σ with cluster }
  | .call a => σ.stepCall a

/-- No master, nothing saved, and a clock that may still show any reading. -/
def init : State := { cluster := { now := Int64.minValue } }

/-! ### Differences of readings -/

section Readings

variable {t u : Int64}

lemma toInt_millis (d : Int64) : (millis d).toInt = d.toInt.tdiv 1000000 :=
  Int64.toInt_div_of_ne_right d 1000000 (by decide)

lemma millis_of_nonneg {d : Int64} (h : 0 ≤ d.toInt) :
    (millis d).toInt = d.toInt / 1000000 := by
  rw [toInt_millis, Int.tdiv_eq_ediv_of_nonneg h]

lemma millis_pos_iff (d : Int64) : 0 < millis d ↔ 1000000 ≤ d.toInt := by
  rw [Int64.lt_iff_toInt_lt]
  show (0 : Int) < _ ↔ _
  rcases le_or_gt 0 d.toInt with h | h
  · rw [millis_of_nonneg h]
    omega
  · have hneg : 0 ≤ (-d.toInt).tdiv 1000000 := Int.tdiv_nonneg (by omega) (by norm_num)
    rw [Int.neg_tdiv, ← toInt_millis] at hneg
    omega

lemma toInt_timeSub (hu : 0 ≤ u.toInt) (h : u.toInt ≤ t.toInt) :
    (timeSub t u).toInt = t.toInt - u.toInt := by
  have ht := Int64.toInt_lt t
  have hmin : Int64.minValue.toInt = -9223372036854775808 := by decide
  have hmax : Int64.maxValue.toInt = 9223372036854775807 := by decide
  exact Int64.toInt_ofIntClamp (by omega) (by omega)

lemma toInt_sub_of_le (hu : 0 ≤ u.toInt) (h : u.toInt ≤ t.toInt) :
    (t - u).toInt = t.toInt - u.toInt := by
  have ht := Int64.toInt_lt t
  rw [Int64.toInt_sub]
  exact Int.bmod_eq_of_le (by omega) (by omega)

end Readings

/-! ### What a step does -/

section Turns

variable {T now prev lastSavedTime : Int64} {phase : Phase}

lemma loadTurn_cases (h : loadTurn T now lastSavedTime = phase) :
    phase = .idle ∨ phase = .loading lastSavedTime ∨
      phase = .loadPut now ∧ 0 < millis (now - lastSavedTime) ∧
        ¬ 0 < 2 * T - millis (now - lastSavedTime) := by
  by_cases he : millis (now - lastSavedTime) ≤ 0
  · exact .inl (by simp only [← h, loadTurn, if_pos he])
  · by_cases hw : 2 * T - millis (now - lastSavedTime) > 0
    · exact .inr (.inl (by simp only [← h, loadTurn, if_neg he, if_pos hw]))
    · have hput : phase = .loadPut now := by simp only [← h, loadTurn, if_neg he, if_neg hw]
      exact .inr (.inr ⟨hput, Int64.not_le.mp he, hw⟩)

lemma saveTurn_cases (h : saveTurn T now prev lastSavedTime = phase) :
    phase = .serving ∨ 0 < millis (timeSub now prev) ∧
      (phase = .savePut now ∧ T < millis (timeSub now lastSavedTime) ∨
        phase = .storing now ∧ millis (timeSub now lastSavedTime) ≤ T) := by
  by_cases he : millis (timeSub now prev) ≤ 0
  · exact .inl (by rw [← h, saveTurn, if_pos he])
  · refine .inr ⟨Int64.not_le.mp he, ?_⟩
    by_cases hs : millis (timeSub now lastSavedTime) > T
    · exact .inl ⟨by rw [← h, saveTurn, if_neg he, if_pos hs], hs⟩
    · exact .inr ⟨by rw [← h, saveTurn, if_neg he, if_neg hs], Int64.not_lt.mp hs⟩

end Turns

/-- The object a server holds. -/
def Cluster.current (κ : Cluster) (s : ServerID) : Option AtomicObject :=
  (κ.servers s).ts.bind (κ.objects[·]?)

section SetPhase

variable (κ : Cluster) (s s' : ServerID) (phase : Phase)

lemma setPhase_self : (κ.setPhase s phase).servers s = { κ.servers s with phase } :=
  Function.update_self ..

lemma setPhase_of_ne (h : s' ≠ s) : (κ.setPhase s phase).servers s' = κ.servers s' :=
  Function.update_of_ne h ..

@[simp] lemma setPhase_term :
    ((κ.setPhase s phase).servers s').term = (κ.servers s').term := by
  by_cases h : s' = s
  · rw [h, setPhase_self]
  · rw [setPhase_of_ne κ s s' phase h]

@[simp] lemma setPhase_lastSavedTime :
    ((κ.setPhase s phase).servers s').lastSavedTime = (κ.servers s').lastSavedTime := by
  by_cases h : s' = s
  · rw [h, setPhase_self]
  · rw [setPhase_of_ne κ s s' phase h]

@[simp] lemma setPhase_ts : ((κ.setPhase s phase).servers s').ts = (κ.servers s').ts := by
  by_cases h : s' = s
  · rw [h, setPhase_self]
  · rw [setPhase_of_ne κ s s' phase h]

@[simp] lemma setPhase_current : (κ.setPhase s phase).current s' = κ.current s' := by
  rw [Cluster.current, setPhase_ts]
  rfl

end SetPhase

/-- The steps of a server that change its phase only. -/
inductive Turn (T : Int64) (κ : Cluster) (s : ServerID) : Phase → Prop
  | leave : Turn T κ s .idle
  | read (h : (κ.servers s).phase = .elected) : Turn T κ s (.loading κ.loadTimestampFromDB)
  | wait {v : Int64} (h : (κ.servers s).phase = .loading v) : Turn T κ s (.loading v)
  | load {v : Int64} (h : (κ.servers s).phase = .loading v) (hpos : 0 < millis (κ.now - v))
      (hwait : ¬ 0 < 2 * T - millis (κ.now - v)) : Turn T κ s (.loadPut κ.now)
  | stay (h : (κ.servers s).phase = .serving) : Turn T κ s .serving
  | save {prev : AtomicObject} (h : (κ.servers s).phase = .serving)
      (hprev : κ.current s = some prev) (hpos : 0 < millis (timeSub κ.now prev.wallTime))
      (hdue : T < millis (timeSub κ.now (κ.servers s).lastSavedTime)) :
      Turn T κ s (.savePut κ.now)
  | renew {prev : AtomicObject} (h : (κ.servers s).phase = .serving)
      (hprev : κ.current s = some prev) (hpos : 0 < millis (timeSub κ.now prev.wallTime))
      (hdue : millis (timeSub κ.now (κ.servers s).lastSavedTime) ≤ T) :
      Turn T κ s (.storing κ.now)

/-- **What a step of the cluster does.** -/
inductive Effect (T : Int64) (κ : Cluster) : Cluster → Prop
  | tick {now : Int64} (h : κ.now ≤ now) : Effect T κ { κ with now }
  | expire : Effect T κ { κ with master := none }
  | campaign {s : ServerID} (hidle : (κ.servers s).phase = .idle)
      (hfree : κ.master = none ∨ κ.master = some s) : Effect T κ (κ.elect s)
  | turn {s : ServerID} {phase : Phase} (h : Turn T κ s phase) : Effect T κ (κ.setPhase s phase)
  | put {s : ServerID} {n : Int64}
      (h : (κ.servers s).phase = .loadPut n ∨ (κ.servers s).phase = .savePut n)
      (hmaster : κ.master = some s) : Effect T κ (κ.saveTime s n)
  | store {s : ServerID} {n : Int64} (h : (κ.servers s).phase = .storing n) :
      Effect T κ (κ.storeObject s n)

theorem step_effect {T : Int64} {κ κ' : Cluster} {a : MasterAction}
    (h : κ.step T a = some κ') : Effect T κ κ' := by
  cases a with
  | tick now =>
    simp only [Cluster.step] at h
    split_ifs at h with hle
    cases h
    exact .tick hle
  | expire =>
    cases h
    exact .expire
  | campaign s =>
    simp only [Cluster.step] at h
    split_ifs at h with hc
    cases h
    exact .campaign hc.1 hc.2
  | loadTimestampFromDB s =>
    simp only [Cluster.step] at h
    split at h
    · rename_i hp
      cases h
      exact .turn (.read hp)
    · cases h
  | loadTimestamp s =>
    simp only [Cluster.step] at h
    split at h
    · rename_i v hp
      cases h
      generalize hturn : loadTurn T κ.now v = phase
      obtain rfl | rfl | ⟨rfl, hpos, hwait⟩ := loadTurn_cases hturn
      · exact .turn .leave
      · exact .turn (.wait hp)
      · exact .turn (.load hp hpos hwait)
    · cases h
  | saveTimestampToDB s =>
    have put : ∀ n, (κ.servers s).phase = .loadPut n ∨ (κ.servers s).phase = .savePut n →
        Effect T κ (if κ.master = some s then κ.saveTime s n else κ.setPhase s .idle) := by
      intro n hp
      split_ifs with hm
      · exact .put hp hm
      · exact .turn .leave
    simp only [Cluster.step] at h
    split at h
    · cases h
      exact put _ (.inl ‹_›)
    · cases h
      exact put _ (.inr ‹_›)
    · cases h
  | store s =>
    simp only [Cluster.step] at h
    split at h
    · rename_i n hp
      cases h
      exact .store hp
    · cases h
  | saveTimestamp s =>
    simp only [Cluster.step] at h
    split at h
    · rename_i prev hp hprev
      cases h
      generalize hturn : saveTurn T κ.now prev.wallTime (κ.servers s).lastSavedTime = phase
      obtain rfl | ⟨hpos, ⟨rfl, hdue⟩ | ⟨rfl, hdue⟩⟩ := saveTurn_cases hturn
      · exact .turn (.stay hp)
      · exact .turn (.save hp hprev hpos hdue)
      · exact .turn (.renew hp hprev hpos hdue)
    · cases h
  | leave s =>
    cases h
    exact .turn .leave

/-! ### The readings of a term go up -/

/-- What a server may rely on in each phase: an elected one has no object in its term yet, and
the reading it is about to store is a millisecond above all objects of its term. -/
def Sound (κ : Cluster) (s : ServerID) : Phase → Prop
  | .idle => True
  | .elected => ∀ obj ∈ κ.objects, obj.server = s → obj.term < (κ.servers s).term
  | .loading v =>
    (∀ obj ∈ κ.objects, obj.server = s → obj.term < (κ.servers s).term) ∧
      0 ≤ v.toInt ∧ (v = 0 ∨ v.toInt ≤ κ.now.toInt)
  | .loadPut n =>
    (∀ obj ∈ κ.objects, obj.server = s → obj.term < (κ.servers s).term) ∧
      0 < n.toInt ∧ n.toInt ≤ κ.now.toInt
  | .savePut n | .storing n =>
    (∀ obj ∈ κ.objects, obj.server = s → obj.term = (κ.servers s).term →
      obj.wallTime.toInt + 1000000 ≤ n.toInt) ∧ 0 < n.toInt ∧ n.toInt ≤ κ.now.toInt
  | .serving =>
    ∃ obj, κ.current s = some obj ∧ obj ∈ κ.objects ∧ obj.server = s ∧
      obj.term = (κ.servers s).term ∧
      ∀ obj' ∈ κ.objects, obj'.server = s → obj'.term = (κ.servers s).term →
        obj'.wallTime.toInt ≤ obj.wallTime.toInt

/-- Objects of one term are a millisecond apart. -/
def Below (a b : AtomicObject) : Prop :=
  a.server = b.server → a.term = b.term → a.wallTime.toInt + 1000000 ≤ b.wallTime.toInt

structure Wf (κ : Cluster) : Prop where
  term_le : ∀ s, (κ.servers s).term ≤ κ.terms
  saved : ∀ v, κ.saved = some v → 0 < v.toInt ∧ v.toInt ≤ κ.now.toInt
  object : ∀ obj ∈ κ.objects, 0 < obj.wallTime.toInt ∧ obj.wallTime.toInt ≤ κ.now.toInt ∧
    obj.term ≤ (κ.servers obj.server).term
  sorted : κ.objects.Pairwise Below
  held : ∀ s o, (κ.servers s).ts = some o → ∃ obj, κ.objects[o]? = some obj ∧ obj.server = s
  sound : ∀ s, Sound κ s (κ.servers s).phase

section Wf

variable {T : Int64} {κ κ' : Cluster} {s : ServerID}

/-- What other servers do leaves a server's phase sound. -/
lemma Sound.frame {phase : Phase} (h : Sound κ s phase)
    (hserver : (κ'.servers s).term = (κ.servers s).term)
    (hcur : ∀ obj, κ.current s = some obj → κ'.current s = some obj)
    (hnow : κ.now.toInt ≤ κ'.now.toInt) {l : List AtomicObject}
    (hobj : κ'.objects = κ.objects ++ l) (hl : ∀ obj ∈ l, obj.server ≠ s) :
    Sound κ' s phase := by
  have hold : ∀ obj ∈ κ'.objects, obj.server = s → obj ∈ κ.objects := by
    intro obj hin hs
    rw [hobj] at hin
    exact (List.mem_append.mp hin).resolve_right fun hnew => hl obj hnew hs
  cases phase with
  | idle => trivial
  | elected => exact fun obj hin hs => hserver ▸ h obj (hold obj hin hs) hs
  | loading v =>
    obtain ⟨hfresh, hpos, hle⟩ := h
    exact ⟨fun obj hin hs => hserver ▸ hfresh obj (hold obj hin hs) hs, hpos,
      hle.imp_right fun hle => hle.trans hnow⟩
  | loadPut n =>
    obtain ⟨hfresh, hpos, hle⟩ := h
    exact ⟨fun obj hin hs => hserver ▸ hfresh obj (hold obj hin hs) hs, hpos, hle.trans hnow⟩
  | savePut n | storing n =>
    obtain ⟨habove, hpos, hle⟩ := h
    exact ⟨fun obj hin hs ht => habove obj (hold obj hin hs) hs (hserver ▸ ht), hpos,
      hle.trans hnow⟩
  | serving =>
    obtain ⟨obj, hc, hin, hs, ht, hmax⟩ := h
    refine ⟨obj, hcur obj hc, ?_, hs, hserver ▸ ht, fun obj' hin' hs' ht' =>
      hmax obj' (hold obj' hin' hs') hs' (hserver ▸ ht')⟩
    rw [hobj]
    exact List.mem_append_left _ hin

lemma Wf.turn {phase : Phase} (h : Wf κ) (hturn : Turn T κ s phase) : Sound κ s phase := by
  have hs := h.sound s
  cases hturn with
  | leave => trivial
  | read hp =>
    rw [hp] at hs
    refine ⟨hs, ?_⟩
    unfold Cluster.loadTimestampFromDB
    cases hsaved : κ.saved with
    | none => exact ⟨le_rfl, .inl rfl⟩
    | some v => exact ⟨(h.saved v hsaved).1.le, .inr (h.saved v hsaved).2⟩
  | wait hp =>
    rw [hp] at hs
    exact hs
  | load hp hpos hwait =>
    rw [hp] at hs
    obtain ⟨hfresh, hv, hle⟩ := hs
    refine ⟨hfresh, ?_, le_rfl⟩
    rw [millis_pos_iff] at hpos
    rcases hle with rfl | hle
    · rw [Int64.sub_zero] at hpos
      omega
    · rw [toInt_sub_of_le hv hle] at hpos
      omega
  | stay hp =>
    rw [hp] at hs
    exact hs
  | save hp hprev hpos hdue | renew hp hprev hpos hdue =>
    rw [hp] at hs
    obtain ⟨obj, hc, hin, -, -, hmax⟩ := hs
    obtain rfl : obj = _ := Option.some_inj.mp (hc.symm.trans hprev)
    obtain ⟨hwall, hle, -⟩ := h.object obj hin
    rw [millis_pos_iff, toInt_timeSub hwall.le hle] at hpos
    refine ⟨fun obj' hin' hs' ht' => ?_, by omega, le_rfl⟩
    have hle' := hmax obj' hin' hs' ht'
    omega

/-- A step of the server `s`: its own record changes, and it may store objects. -/
structure Cluster.UpdatesTo (κ : Cluster) (s : ServerID) (server : Server)
    (l : List AtomicObject) (κ' : Cluster) : Prop where
  servers : κ'.servers = Function.update κ.servers s server
  objects : κ'.objects = κ.objects ++ l
  now : κ'.now = κ.now

namespace Cluster.UpdatesTo

variable {server : Server} {l : List AtomicObject} {s' : ServerID}

lemma self (h : κ.UpdatesTo s server l κ') : κ'.servers s = server := by
  rw [h.servers, Function.update_self]

lemma of_ne (h : κ.UpdatesTo s server l κ') (hne : s' ≠ s) : κ'.servers s' = κ.servers s' := by
  rw [h.servers, Function.update_of_ne hne]

lemma getElem? (h : κ.UpdatesTo s server l κ') {o : ℕ} {obj : AtomicObject}
    (hget : κ.objects[o]? = some obj) : κ'.objects[o]? = some obj := by
  have hlt : o < κ.objects.length := (List.getElem?_eq_some_iff.mp hget).1
  rw [h.objects, List.getElem?_append_left hlt]
  exact hget

lemma current_of_ne (h : κ.UpdatesTo s server l κ') (hne : s' ≠ s) {obj : AtomicObject}
    (hc : κ.current s' = some obj) : κ'.current s' = some obj := by
  unfold Cluster.current at hc ⊢
  rw [h.of_ne hne]
  obtain ⟨o, ho, hget⟩ := Option.bind_eq_some_iff.mp hc
  rw [ho, Option.bind_some]
  exact h.getElem? hget

lemma setPhase (κ : Cluster) (s : ServerID) (phase : Phase) :
    κ.UpdatesTo s { κ.servers s with phase } [] (κ.setPhase s phase) :=
  ⟨rfl, (List.append_nil _).symm, rfl⟩

lemma elect (κ : Cluster) (s : ServerID) :
    κ.UpdatesTo s { κ.servers s with phase := .elected, term := κ.terms + 1 } [] (κ.elect s) :=
  ⟨rfl, (List.append_nil _).symm, rfl⟩

lemma saveTime (κ : Cluster) (s : ServerID) (n : Int64) :
    κ.UpdatesTo s { κ.servers s with phase := .storing n, lastSavedTime := n } []
      (κ.saveTime s n) :=
  ⟨rfl, (List.append_nil _).symm, rfl⟩

lemma storeObject (κ : Cluster) (s : ServerID) (n : Int64) :
    κ.UpdatesTo s { κ.servers s with phase := .serving, ts := some κ.objects.length }
      [⟨n, s, (κ.servers s).term⟩] (κ.storeObject s n) := ⟨rfl, rfl, rfl⟩

/-- What a server does to itself keeps the invariant when its own part of it is kept. -/
lemma wf (hup : κ.UpdatesTo s server l κ') (h : Wf κ)
    (hterms : κ.terms ≤ κ'.terms) (hterm : (κ.servers s).term ≤ server.term)
    (hterm' : server.term ≤ κ'.terms)
    (hsaved : ∀ v, κ'.saved = some v → 0 < v.toInt ∧ v.toInt ≤ κ.now.toInt)
    (hl : ∀ obj ∈ l, obj.server = s ∧ obj.term ≤ server.term ∧ 0 < obj.wallTime.toInt ∧
      obj.wallTime.toInt ≤ κ.now.toInt)
    (hsorted : κ'.objects.Pairwise Below)
    (hheld : ∀ o, server.ts = some o → ∃ obj, κ'.objects[o]? = some obj ∧ obj.server = s)
    (hsound : Sound κ' s server.phase) : Wf κ' := by
  have hgrow : ∀ s', (κ.servers s').term ≤ (κ'.servers s').term := by
    intro s'
    by_cases hs : s' = s
    · rw [hs, hup.self]
      exact hterm
    · rw [hup.of_ne hs]
  refine ⟨fun s' => ?_, fun v hv => hup.now ▸ hsaved v hv, fun obj hin => ?_, hsorted,
    fun s' o ho => ?_, fun s' => ?_⟩
  · by_cases hs : s' = s
    · rw [hs, hup.self]
      exact hterm'
    · rw [hup.of_ne hs]
      exact (h.term_le s').trans hterms
  · rw [hup.objects] at hin
    rw [hup.now]
    rcases List.mem_append.mp hin with hin | hin
    · obtain ⟨hpos, hwall, hle⟩ := h.object obj hin
      exact ⟨hpos, hwall, hle.trans (hgrow obj.server)⟩
    · obtain ⟨hs, hle, hpos, hwall⟩ := hl obj hin
      rw [hs, hup.self]
      exact ⟨hpos, hwall, hle⟩
  · by_cases hs : s' = s
    · rw [hs, hup.self] at ho
      rw [hs]
      exact hheld o ho
    · rw [hup.of_ne hs] at ho
      obtain ⟨obj, hget, hserver⟩ := h.held s' o ho
      exact ⟨obj, hup.getElem? hget, hserver⟩
  · by_cases hs : s' = s
    · rw [hs, hup.self]
      exact hsound
    · have heq := hup.of_ne hs
      rw [heq]
      refine (h.sound s').frame (congrArg Server.term heq) (fun obj hc => hup.current_of_ne hs hc)
        (hup.now ▸ le_rfl) hup.objects fun obj hin hserver => ?_
      exact hs (hserver.symm.trans (hl obj hin).1)

end Cluster.UpdatesTo

lemma Wf.tick {now : Int64} (h : Wf κ) (hle : κ.now ≤ now) : Wf { κ with now } := by
  have hnow := Int64.le_iff_toInt_le.mp hle
  exact
    { term_le := h.term_le
      saved := fun v hv => ⟨(h.saved v hv).1, (h.saved v hv).2.trans hnow⟩
      object := fun obj hin => by
        obtain ⟨hpos, hwall, hterm⟩ := h.object obj hin
        exact ⟨hpos, hwall.trans hnow, hterm⟩
      sorted := h.sorted
      held := h.held
      sound := fun s => (h.sound s).frame rfl (fun _ hc => hc) hnow (List.append_nil _).symm
        (by simp) }

lemma Wf.expire (h : Wf κ) : Wf { κ with master := none } where
  term_le := h.term_le
  saved := h.saved
  object := h.object
  sorted := h.sorted
  held := h.held
  sound := fun s => (h.sound s).frame rfl (fun _ hc => hc) le_rfl (List.append_nil _).symm
    (by simp)

lemma Wf.sorted_append (h : Wf κ) {n : Int64} (hphase : (κ.servers s).phase = .storing n) :
    List.Pairwise Below (κ.objects ++ [⟨n, s, (κ.servers s).term⟩]) := by
  have hs := h.sound s
  rw [hphase] at hs
  refine List.pairwise_append.mpr ⟨h.sorted, List.pairwise_singleton _ _, fun a ha b hb => ?_⟩
  obtain rfl := List.mem_singleton.mp hb
  exact hs.1 a ha

/-- **Every step keeps the readings of a term apart and in order.** -/
theorem Wf.step (h : Wf κ) (hstep : Effect T κ κ') : Wf κ' := by
  cases hstep with
  | tick hle => exact h.tick hle
  | expire => exact h.expire
  | @campaign s hidle hfree =>
    have hup := Cluster.UpdatesTo.elect κ s
    refine hup.wf h (Nat.le_succ _) ((h.term_le s).trans (Nat.le_succ _)) le_rfl h.saved
      (by simp) h.sorted (h.held s) fun obj hin hserver => ?_
    have hle := (h.object obj hin).2.2
    have hle' := h.term_le obj.server
    rw [hup.self]
    show obj.term < κ.terms + 1
    omega
  | @turn s phase hturn =>
    have hup := Cluster.UpdatesTo.setPhase κ s phase
    exact hup.wf h le_rfl le_rfl (h.term_le s) h.saved (by simp) h.sorted (h.held s)
      ((h.turn hturn).frame (setPhase_term ..) (fun obj hc => by simpa using hc) le_rfl
        hup.objects (by simp))
  | @put s n hphase hmaster =>
    have hn : (∀ obj ∈ κ.objects, obj.server = s → obj.term = (κ.servers s).term →
        obj.wallTime.toInt + 1000000 ≤ n.toInt) ∧ 0 < n.toInt ∧ n.toInt ≤ κ.now.toInt := by
      have hs := h.sound s
      rcases hphase with hp | hp
      · rw [hp] at hs
        exact ⟨fun obj hin hserver hterm => absurd hterm (hs.1 obj hin hserver).ne, hs.2⟩
      · rw [hp] at hs
        exact hs
    have hup := Cluster.UpdatesTo.saveTime κ s n
    refine hup.wf h le_rfl le_rfl (h.term_le s) (fun v hv => ?_) (by simp) h.sorted (h.held s) ?_
    · cases hv
      exact hn.2
    · refine ⟨fun obj hin hserver hterm => hn.1 obj hin hserver ?_, hn.2⟩
      rw [hup.self] at hterm
      exact hterm
  | @store s n hphase =>
    have hs := h.sound s
    rw [hphase] at hs
    have hup := Cluster.UpdatesTo.storeObject κ s n
    refine hup.wf h le_rfl le_rfl (h.term_le s) h.saved (fun obj hin => ?_)
      (h.sorted_append hphase) (fun o ho => ?_) ⟨⟨n, s, (κ.servers s).term⟩, ?_⟩
    · obtain rfl := List.mem_singleton.mp hin
      exact ⟨rfl, le_rfl, hs.2⟩
    · cases ho
      exact ⟨_, List.getElem?_concat_length, rfl⟩
    · rw [Cluster.current, hup.self]
      refine ⟨List.getElem?_concat_length, ?_, rfl, rfl, fun obj hin hserver hterm => ?_⟩
      · rw [hup.objects]
        exact List.mem_append_right _ List.mem_cons_self
      · rw [hup.objects] at hin
        rcases List.mem_append.mp hin with hin | hin
        · have hle := hs.1 obj hin hserver hterm
          show obj.wallTime.toInt ≤ n.toInt
          omega
        · rw [List.mem_singleton.mp hin]

end Wf

lemma wf_init : Wf init.cluster where
  term_le _ := le_rfl
  saved _ h := by cases h
  object _ h := by cases h
  sorted := List.Pairwise.nil
  held _ _ h := by cases h
  sound _ := trivial

end Ancestor.Oracle
