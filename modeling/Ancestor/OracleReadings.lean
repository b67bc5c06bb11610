import Ancestor.Oracle

/-!
The timestamps of one master under a clock that is set (`pd/ts.go`).

A reading of the clock has two parts. `UnixNano` gives the wall time, which may be set in either
direction; `Sub` takes the difference of the monotonic parts, which never go back. `saveTimestamp`
compares readings with `Sub` and `getTimestamp` answers with the wall time, so a new object may
come with a wall time that is not above the old one.
-/

namespace Ancestor.OracleReadings

open Oracle

/-- What `time.Now` returns. -/
structure Reading where
  wall : Int64
  mono : Int64
  deriving DecidableEq, Repr

/-- The `WallTime` of the timestamps of an object. -/
def Reading.wallTime (t : Reading) : Int64 := millis t.wall

structure AtomicObject where
  wallTime : Reading
  logical : Int32 := 0
  deriving DecidableEq, Repr

/-- A master in its term: the last reading of its clock, the object it serves from, and the reading
saved last; `serving` ends with an error of `saveTimestamp`. Beside them, in the order in which
they came, the wall times of the objects stored and the timestamps issued. -/
structure Term where
  now : Reading
  ts : AtomicObject
  lastSavedTime : Reading
  serving : Bool := true
  installed : List Int64
  issued : List Timestamp := []
  deriving DecidableEq, Repr

/-- The end of `loadTimestamp`: the reading is saved and the first object is stored. -/
def Term.load (now : Reading) : Term :=
  { now, ts := ⟨now, 0⟩, lastSavedTime := now, installed := [now.wallTime] }

/-- `s.ts.Store` of a new object. -/
def Term.store (t : Term) (now : Reading) : Term :=
  { t with ts := ⟨now, 0⟩, installed := t.installed ++ [now.wallTime] }

/-- `saveTimestamp` at the reading `now`; `saves` says whether a put into etcd would succeed. -/
def Term.saveTimestamp (T : Int64) (t : Term) (now : Reading) (saves : Bool) : Term :=
  let t := { t with now }
  match saveTurn T now.mono t.ts.wallTime.mono t.lastSavedTime.mono with
  | .savePut _ =>
    if saves then { t with lastSavedTime := now }.store now else { t with serving := false }
  | .storing _ => t.store now
  | _ => t

/-- One turn of the loop of `getTimestamp`: it answers unless the counter is past its bound. -/
def Term.getTimestamp (t : Term) : Term :=
  let ts : Timestamp := ⟨t.ts.wallTime.wallTime, t.ts.logical + 1⟩
  let t := { t with ts.logical := ts.logical }
  if ts.logical ≥ maxLogical then t else { t with issued := t.issued ++ [ts] }

inductive Action
  | saveTimestamp (now : Reading) (saves : Bool)
  | getTimestamp
  deriving DecidableEq, Repr

-- The monotonic part of the clock never goes back.
def Term.step (T : Int64) (t : Term) : Action → Option Term
  | .saveTimestamp now saves =>
    if t.serving ∧ t.now.mono ≤ now.mono then some (t.saveTimestamp T now saves) else none
  | .getTimestamp => some t.getTimestamp

/-! ### The conditions -/

/-- The wall times of the timestamps never go down, those of the objects go up, and no timestamp
is issued twice. -/
structure Forward (t : Term) : Prop where
  issued : t.issued.Pairwise fun a b => a.wallTime ≤ b.wallTime
  installed : t.installed.Pairwise (· < ·)
  distinct : t.issued.Nodup

/-- `saveTimestamp` stores a new object: a millisecond has passed, and the put into etcd succeeds
when there is one. -/
def Term.Stores (T : Int64) (t : Term) (now : Reading) (saves : Bool) : Prop :=
  0 < millis (timeSub now.mono t.ts.wallTime.mono) ∧
    (T < millis (timeSub now.mono t.lastSavedTime.mono) → saves = true)

instance (T : Int64) (t : Term) (now : Reading) (saves : Bool) :
    Decidable (t.Stores T now saves) := inferInstanceAs (Decidable (_ ∧ _))

/-- A new object comes with a later wall time. -/
def Ahead (T : Int64) (t : Term) : Action → Prop
  | .saveTimestamp now saves => t.Stores T now saves → t.ts.wallTime.wallTime < now.wallTime
  | .getTimestamp => True

instance (T : Int64) (t : Term) (a : Action) : Decidable (Ahead T t a) := by
  cases a <;> unfold Ahead <;> infer_instance

/-- The counter of the object has not reached its greatest value. -/
def NoWrap (t : Term) : Action → Prop
  | .saveTimestamp .. => True
  | .getTimestamp => t.ts.logical ≠ Int32.maxValue

instance (t : Term) (a : Action) : Decidable (NoWrap t a) := by
  cases a <;> unfold NoWrap <;> infer_instance

/-! ### One step -/

section Step

variable {T : Int64} {t t' : Term} {a : Action}

/-- What a step can do. -/
inductive Effect (T : Int64) (t : Term) : Action → Term → Prop
  | stored {now last : Reading} {saves : Bool} (h : t.Stores T now saves) :
      Effect T t (.saveTimestamp now saves) ({ t with now, lastSavedTime := last }.store now)
  | kept {now : Reading} {saves serving : Bool} (h : ¬ t.Stores T now saves) :
      Effect T t (.saveTimestamp now saves) { t with now, serving }
  | answered : Effect T t .getTimestamp
      { t with
        ts.logical := t.ts.logical + 1
        issued := t.issued ++ [⟨t.ts.wallTime.wallTime, t.ts.logical + 1⟩] }
  | exhausted : Effect T t .getTimestamp { t with ts.logical := t.ts.logical + 1 }

theorem step_effect (h : t.step T a = some t') : Effect T t a t' := by
  cases a with
  | saveTimestamp now saves =>
    simp only [Term.step] at h
    split_ifs at h
    cases h
    unfold Term.saveTimestamp
    by_cases hpos : 0 < millis (timeSub now.mono t.ts.wallTime.mono)
    · have hle : ¬ millis (timeSub now.mono t.ts.wallTime.mono) ≤ 0 := Int64.not_le.mpr hpos
      by_cases hdue : T < millis (timeSub now.mono t.lastSavedTime.mono)
      · have hturn : saveTurn T now.mono t.ts.wallTime.mono t.lastSavedTime.mono =
            .savePut now.mono := by rw [saveTurn, if_neg hle, if_pos hdue]
        simp only [hturn]
        cases saves with
        | true => exact .stored ⟨hpos, fun _ => rfl⟩
        | false => exact .kept fun h => absurd (h.2 hdue) (by decide)
      · have hturn : saveTurn T now.mono t.ts.wallTime.mono t.lastSavedTime.mono =
            .storing now.mono := by rw [saveTurn, if_neg hle, if_neg hdue]
        simp only [hturn]
        exact .stored ⟨hpos, fun h => absurd h hdue⟩
    · have hturn : saveTurn T now.mono t.ts.wallTime.mono t.lastSavedTime.mono = .serving := by
        rw [saveTurn, if_pos (Int64.not_lt.mp hpos)]
      simp only [hturn]
      exact .kept fun h => hpos h.1
  | getTimestamp =>
    simp only [Term.step, Option.some.injEq] at h
    subst h
    unfold Term.getTimestamp
    simp only
    split_ifs
    · exact .exhausted
    · exact .answered

/-- The wall times that a term has used, whatever the clock does: the last object stored is the
one served from, and the timestamps are those of objects. -/
structure Kept (t : Term) : Prop where
  last : t.installed.getLast? = some t.ts.wallTime.wallTime
  used : ∀ x ∈ t.issued, x.wallTime ∈ t.installed

/-- The part of `Forward` that is about wall times. -/
structure Rising (t : Term) : Prop where
  issued : t.issued.Pairwise fun a b => a.wallTime ≤ b.wallTime
  installed : t.installed.Pairwise (· < ·)

lemma Kept.load (now : Reading) : Kept (.load now) := ⟨rfl, fun _ h => by cases h⟩

lemma Rising.load (now : Reading) : Rising (.load now) := ⟨.nil, List.pairwise_singleton _ _⟩

lemma Kept.step (h : Kept t) (hs : t.step T a = some t') : Kept t' := by
  cases step_effect hs with
  | @stored now _ _ _ =>
    exact ⟨List.getLast?_concat, fun x hx => List.mem_append_left _ (h.used x hx)⟩
  | kept _ => exact ⟨h.last, h.used⟩
  | answered =>
    refine ⟨h.last, fun x hx => ?_⟩
    rcases List.mem_append.mp hx with hx | hx
    · exact h.used x hx
    · rw [List.mem_singleton.mp hx]
      exact List.mem_of_getLast? h.last
  | exhausted => exact ⟨h.last, h.used⟩

/-- No object is above the one served from. -/
lemma Rising.le_current (h : Rising t) (hk : Kept t) {x : Int64} (hx : x ∈ t.installed) :
    x ≤ t.ts.wallTime.wallTime := by
  obtain ⟨l, hl⟩ := List.getLast?_eq_some_iff.mp hk.last
  have hsorted := h.installed
  rw [hl] at hsorted hx
  rcases List.mem_append.mp hx with hx | hx
  · exact Int64.le_of_lt ((List.pairwise_append.mp hsorted).2.2 x hx _ List.mem_cons_self)
  · rw [List.mem_singleton.mp hx]
    exact Int64.le_refl _

/-- **A step keeps the wall times rising exactly when a new object comes with a later one.** -/
lemma rising_step (hk : Kept t) (h : Rising t) (hs : t.step T a = some t') :
    Rising t' ↔ Ahead T t a := by
  cases step_effect hs with
  | @stored now last saves hst =>
    constructor
    · intro h' _
      have hsorted : (t.installed ++ [now.wallTime]).Pairwise (· < ·) := h'.installed
      exact (List.pairwise_append.mp hsorted).2.2 _ (List.mem_of_getLast? hk.last) _
        List.mem_cons_self
    · intro hahead
      refine ⟨h.issued, List.pairwise_append.mpr
        ⟨h.installed, List.pairwise_singleton _ _, fun x hx y hy => ?_⟩⟩
      rw [List.mem_singleton.mp hy]
      exact Int64.lt_of_le_of_lt (h.le_current hk hx) (hahead hst)
  | kept hst => exact iff_of_true ⟨h.issued, h.installed⟩ fun hst' => absurd hst' hst
  | answered =>
    refine iff_of_true ⟨List.pairwise_append.mpr
      ⟨h.issued, List.pairwise_singleton _ _, fun x hx y hy => ?_⟩, h.installed⟩ trivial
    rw [List.mem_singleton.mp hy]
    exact h.le_current hk (hk.used x hx)
  | exhausted => exact iff_of_true ⟨h.issued, h.installed⟩ trivial

/-- The timestamps go up, and none is past the counter. -/
structure Counted (t : Term) : Prop where
  sorted : t.issued.Pairwise (· < ·)
  le : ∀ x ∈ t.issued, x ≤ ⟨t.ts.wallTime.wallTime, t.ts.logical⟩

lemma Counted.load (now : Reading) : Counted (.load now) := ⟨.nil, fun _ h => by cases h⟩

lemma Counted.step (h : Counted t) (hahead : Ahead T t a) (hwrap : NoWrap t a)
    (hs : t.step T a = some t') : Counted t' := by
  have hnext : t.ts.logical ≠ Int32.maxValue →
      (⟨t.ts.wallTime.wallTime, t.ts.logical⟩ : Timestamp) <
        ⟨t.ts.wallTime.wallTime, t.ts.logical + 1⟩ := fun hmax =>
    (Timestamp.lt_iff _ _).mpr (.inr ⟨rfl, by grind⟩)
  cases step_effect hs with
  | @stored now last saves hst =>
    refine ⟨h.sorted, fun x hx => (h.le x hx).trans (le_of_lt ?_)⟩
    exact (Timestamp.lt_iff _ _).mpr (.inl (hahead hst))
  | kept _ => exact ⟨h.sorted, h.le⟩
  | answered =>
    have hlt : ∀ x ∈ t.issued, x < ⟨t.ts.wallTime.wallTime, t.ts.logical + 1⟩ := fun x hx =>
      (h.le x hx).trans_lt (hnext hwrap)
    refine ⟨List.pairwise_append.mpr ⟨h.sorted, List.pairwise_singleton _ _, fun x hx y hy => ?_⟩,
      fun x hx => ?_⟩
    · rw [List.mem_singleton.mp hy]
      exact hlt x hx
    · rcases List.mem_append.mp hx with hx | hx
      · exact (hlt x hx).le
      · rw [List.mem_singleton.mp hx]
  | exhausted => exact ⟨h.sorted, fun x hx => (h.le x hx).trans (hnext hwrap).le⟩

end Step

/-! ### A whole term -/

/-- **When the oracle never moves back.** In a term that begins at the reading `now`, and in which
no counter overflows, the wall times of the timestamps never go down, those of the objects go up
and no timestamp is issued twice, exactly when every object stored comes with a wall time of a
later millisecond. -/
theorem forward_iff {T : Int64} {now : Reading} {l : List Action} {t : Term}
    (hrun : Steps.run (Term.step T) (.load now) l = some t)
    (hwrap : Steps.Along (Term.step T) NoWrap (.load now) l) :
    Steps.Always (Term.step T) Forward (.load now) l ↔
      Steps.Along (Term.step T) (Ahead T) (.load now) l := by
  have hrising := Steps.always_iff_along (I := Kept) (fun _ _ _ h hs => h.step hs)
    (fun _ _ _ hk h hs => rising_step hk h hs) (Kept.load now) (Rising.load now) hrun
  constructor
  · intro h
    exact hrising.mp (h.imp fun t ht => ⟨ht.issued, ht.installed⟩)
  · intro h
    have hall : Steps.Always (Term.step T) (fun t => Kept t ∧ Rising t ∧ Counted t) (.load now)
        l := by
      refine Steps.always_of_along ?_ ⟨.load now, .load now, .load now⟩ (h.and hwrap)
      rintro t a t' ⟨hk, hr, hc⟩ ⟨hahead, hw⟩ hs
      exact ⟨hk.step hs, (rising_step hk hr hs).mpr hahead, hc.step hahead hw hs⟩
    refine hall.imp fun t ht => ⟨ht.2.1.issued, ht.2.1.installed, ?_⟩
    exact ht.2.2.sorted.imp fun hlt => hlt.ne

/-- The clock is set back while the object is fifty milliseconds old, first by as much and then by
a second. -/
def setBack : List Action :=
  [.getTimestamp, .saveTimestamp ⟨1700000000000000000, 50000000⟩ true, .getTimestamp,
    .saveTimestamp ⟨1699999999000000000, 100000000⟩ true, .getTimestamp]

/-- **A clock that is set back has timestamps issued twice, and older ones after.** -/
theorem backward_when_set_back :
    ∃ t, Steps.run (Term.step 2000) (.load ⟨1700000000000000000, 0⟩) setBack = some t ∧
      t.installed = [1700000000000, 1700000000000, 1699999999000] ∧
      t.issued = [⟨1700000000000, 1⟩, ⟨1700000000000, 1⟩, ⟨1699999999000, 1⟩] ∧
      ¬ Forward t := by
  have hrun : (Steps.run (Term.step 2000) (.load ⟨1700000000000000000, 0⟩) setBack).map
      (fun t => (t.installed, t.issued)) =
        some ([1700000000000, 1700000000000, 1699999999000],
          [⟨1700000000000, 1⟩, ⟨1700000000000, 1⟩, ⟨1699999999000, 1⟩]) := by decide +kernel
  obtain ⟨t, ht, heq⟩ := Option.map_eq_some_iff.mp hrun
  rw [Prod.mk.injEq] at heq
  refine ⟨t, ht, heq.1, heq.2, fun h => ?_⟩
  have hdistinct := h.distinct
  rw [heq.2] at hdistinct
  exact absurd hdistinct (by decide)

/-- A clock that is only ever late. -/
theorem forward_when_ahead :
    (Steps.run (Term.step 2000) (.load ⟨1700000000000000000, 0⟩)
        [.getTimestamp, .saveTimestamp ⟨1700000000001000000, 50000000⟩ true, .getTimestamp]).map
        (·.issued) = some [⟨1700000000000, 1⟩, ⟨1700000000001, 1⟩] ∧
      Steps.Always (Term.step 2000) Forward (.load ⟨1700000000000000000, 0⟩)
        [.getTimestamp, .saveTimestamp ⟨1700000000001000000, 50000000⟩ true, .getTimestamp] := by
  obtain ⟨t, ht⟩ : ∃ t, Steps.run (Term.step 2000) (.load ⟨1700000000000000000, 0⟩)
      [.getTimestamp, .saveTimestamp ⟨1700000000001000000, 50000000⟩ true, .getTimestamp] =
        some t := ⟨_, rfl⟩
  exact ⟨by decide +kernel, (forward_iff ht (by decide +kernel)).mpr (by decide +kernel)⟩

end Ancestor.OracleReadings
