import Ancestor.RaftLog
import Ancestor.Lib.Steps

/-!
The allocator of ids of the placement driver (`pd/id.go`, `pd/util.go`).

Any number of processes run `newID` against one key of etcd, which holds the numeral of the
last id. A call reads the key and then puts the next numeral under a compare: that the key has
not been created, or that it still holds what was read. When the compare fails the call goes
round again, with its variable `id` as it is.
-/

namespace Ancestor.IdAllocator

open Bytes

abbrev ProcessID := ℕ

/-- `strconv.ParseInt` in base ten, of 64 bits. -/
def parseInt (b : Bytes) : Option Int64 :=
  if b.head? = some 0x2d then
    (ofDecimal b.tail).bind fun n => if n ≤ 2 ^ 63 then some (.ofInt (-n)) else none
  else
    (ofDecimal (if b.head? = some 0x2b then b.tail else b)).bind fun n =>
      if n < 2 ^ 63 then some (.ofInt n) else none

/-- `strconv.FormatInt` in base ten. -/
def formatInt (id : Int64) : Bytes := fmtInt 0 id

lemma decimalPad_zero (n : ℕ) : decimalPad 0 n = decimal n := by
  simp [decimalPad]

theorem parseInt_formatInt (id : Int64) : parseInt (formatInt id) = some id := by
  have hlo := id.le_toInt
  have hhi := id.toInt_lt
  by_cases h : id < 0
  · have hneg : id.toInt < 0 := Int64.lt_iff_toInt_lt.mp h
    have hof : -(id.toInt.natAbs : Int) = id.toInt := by omega
    rw [formatInt, fmtInt, if_pos h, decimalPad_zero, parseInt, List.head?_cons, if_pos rfl,
      List.tail_cons, ofDecimal_decimal, Option.bind_some, if_pos (by omega), hof,
      Int64.ofInt_toInt]
  · have hpos : 0 ≤ id.toInt := by
      rw [Int64.lt_iff_toInt_lt] at h
      exact not_lt.mp h
    have hsign : ∀ c < 0x30, (decimal id.toInt.toNat).head? ≠ some c := by
      intro c hc hhead
      exact absurd (decimal_head hhead) (not_le.mpr hc)
    rw [formatInt, fmtInt, if_neg h, decimalPad_zero, parseInt, if_neg (hsign _ (by decide)),
      if_neg (hsign _ (by decide)), ofDecimal_decimal, Option.bind_some, if_pos (by omega),
      Int.toNat_of_nonneg hpos, Int64.ofInt_toInt]

/-- What a put compares before it writes. -/
inductive Cmp
  /-- the key has no create revision -/
  | absent
  | value (b : Bytes)
  deriving DecidableEq, Repr

def Cmp.holds : Cmp → Option Bytes → Bool
  | .absent, stored => stored.isNone
  | .value b, stored => stored = some b

/-- Where a process stands in `newID`, with its variable `id`. -/
inductive Phase
  | idle
  /-- before `getValues` -/
  | reading (id : Int64)
  /-- before `put` -/
  | putting (cmp : Cmp) (id : Int64)
  deriving DecidableEq, Repr

/-- The key of etcd, the processes, and the calls that returned an id, the latest first, each
with what its put replaced. -/
structure State where
  stored : Option Bytes
  phase : ProcessID → Phase := fun _ => .idle
  returned : List (Option Bytes × Int64) := []

/-- No call is under way. -/
def start (stored : Option Bytes) : State := { stored }

inductive Action
  | newID (p : ProcessID)
  | getValues (p : ProcessID)
  /-- `getValues` returns an error -/
  | getFails (p : ProcessID)
  | put (p : ProcessID)
  /-- etcd takes the put and the answer does not arrive -/
  | putUnanswered (p : ProcessID)
  | putFails (p : ProcessID)
  deriving DecidableEq, Repr

namespace State

def setPhase (σ : State) (p : ProcessID) (phase : Phase) : State :=
  { σ with phase := Function.update σ.phase p phase }

/-- The loop from the answer of `getValues` to the put. -/
def afterGet (id : Int64) : Option Bytes → Phase
  | none => .putting .absent (id + 1)
  | some b =>
    match parseInt b with
    | none => .idle
    | some v => .putting (.value b) (v + 1)

/-- The transaction of `putValues`, with the phase that follows its answer. -/
def putValue (σ : State) (p : ProcessID) (cmp : Cmp) (id : Int64) : State :=
  if cmp.holds σ.stored then { σ.setPhase p .idle with stored := some (formatInt id) }
  else σ.setPhase p (.reading id)

def step (σ : State) : Action → Option State
  | .newID p =>
    match σ.phase p with
    | .idle => some (σ.setPhase p (.reading 0))
    | _ => none
  | .getValues p =>
    match σ.phase p with
    | .reading id => some (σ.setPhase p (afterGet id σ.stored))
    | _ => none
  | .getFails p =>
    match σ.phase p with
    | .reading _ => some (σ.setPhase p .idle)
    | _ => none
  | .put p =>
    match σ.phase p with
    | .putting cmp id =>
      let σ' := σ.putValue p cmp id
      some (if cmp.holds σ.stored then { σ' with returned := (σ.stored, id) :: σ.returned } else σ')
    | _ => none
  | .putUnanswered p =>
    match σ.phase p with
    | .putting cmp id => some ((σ.putValue p cmp id).setPhase p .idle)
    | _ => none
  | .putFails p =>
    match σ.phase p with
    | .putting _ _ => some (σ.setPhase p .idle)
    | _ => none

/-- The number stored under the key. -/
def value (σ : State) : Option Int64 := σ.stored.bind parseInt

/-- The largest id has not been given out. -/
def Lasts (σ : State) : Prop := σ.value ≠ some Int64.maxValue

instance (σ : State) : Decidable σ.Lasts := inferInstanceAs (Decidable (_ ≠ _))

end State

/-- `id` is one more than the value it replaces, or the first one. -/
def Follows (replaced : Option Bytes) (id : Int64) : Prop :=
  match replaced with
  | none => id = 1
  | some b => ∃ v, parseInt b = some v ∧ id = v + 1

/-! ### The phases of the processes -/

/-- What a phase says of the key. -/
def PhaseOk (stored : Option Bytes) : Phase → Prop
  | .idle => True
  -- a number carried over from a failed compare means the key was there
  | .reading id => stored = none → id = 0
  | .putting .absent id => id = 1
  | .putting (.value b) id => stored ≠ none ∧ Follows (some b) id

/-- What one step changes: a phase, or the key as well. -/
inductive Effect (σ : State) : State → Prop
  | move (p : ProcessID) (phase : Phase) (h : PhaseOk σ.stored phase) :
      Effect σ (σ.setPhase p phase)
  | store (p : ProcessID) (id : Int64) (h : Follows σ.stored id) :
      Effect σ { σ.setPhase p .idle with stored := some (formatInt id) }
  | give (p : ProcessID) (id : Int64) (h : Follows σ.stored id) :
      Effect σ { σ.setPhase p .idle with
        stored := some (formatInt id), returned := (σ.stored, id) :: σ.returned }

section Effects

variable {σ σ' : State} {p : ProcessID}

lemma setPhase_setPhase (σ : State) (p : ProcessID) (a b : Phase) :
    (σ.setPhase p a).setPhase p b = σ.setPhase p b := by
  simp [State.setPhase]

lemma afterGet_ok {stored : Option Bytes} {id : Int64} (h : PhaseOk stored (.reading id)) :
    PhaseOk stored (State.afterGet id stored) := by
  cases stored with
  | none =>
    have hid : id = 0 := h rfl
    subst hid
    rfl
  | some b =>
    cases hb : parseInt b with
    | none => simp [State.afterGet, hb, PhaseOk]
    | some v => simp [State.afterGet, hb, PhaseOk, Follows]

/-- A compare that holds says what the put replaces. -/
lemma follows_of_holds {stored : Option Bytes} {cmp : Cmp} {id : Int64}
    (h : PhaseOk stored (.putting cmp id)) (hc : cmp.holds stored = true) : Follows stored id := by
  cases cmp with
  | absent =>
    rw [Cmp.holds, Option.isNone_iff_eq_none] at hc
    subst hc
    exact h
  | value b =>
    have hb : stored = some b := of_decide_eq_true hc
    subst hb
    exact h.2

lemma reading_of_not_holds {stored : Option Bytes} {cmp : Cmp} {id : Int64}
    (h : PhaseOk stored (.putting cmp id)) (hc : ¬cmp.holds stored = true) :
    PhaseOk stored (.reading id) := by
  intro hnone
  subst hnone
  cases cmp with
  | absent => exact absurd rfl hc
  | value b => exact absurd rfl h.1

/-- **Every step is one of the three effects.** -/
theorem step_effect {a : Action} (hok : ∀ p, PhaseOk σ.stored (σ.phase p))
    (h : σ.step a = some σ') : Effect σ σ' := by
  cases a with
  | newID p =>
    simp only [State.step] at h
    split at h
    · cases h
      exact .move p _ fun _ => rfl
    · cases h
  | getValues p =>
    simp only [State.step] at h
    split at h
    · rename_i id hp
      cases h
      have hid := hok p
      rw [hp] at hid
      exact .move p _ (afterGet_ok hid)
    · cases h
  | getFails p =>
    simp only [State.step] at h
    split at h
    · cases h
      exact .move p _ trivial
    · cases h
  | put p =>
    simp only [State.step] at h
    split at h
    · rename_i cmp id hp
      have hid := hok p
      rw [hp] at hid
      cases h
      by_cases hc : cmp.holds σ.stored = true
      · rw [if_pos hc, State.putValue, if_pos hc]
        exact .give p id (follows_of_holds hid hc)
      · rw [if_neg hc, State.putValue, if_neg hc]
        exact .move p _ (reading_of_not_holds hid hc)
    · cases h
  | putUnanswered p =>
    simp only [State.step] at h
    split at h
    · rename_i cmp id hp
      have hid := hok p
      rw [hp] at hid
      cases h
      by_cases hc : cmp.holds σ.stored = true
      · have hidle : ({ σ.setPhase p .idle with stored := some (formatInt id) } : State).setPhase
            p .idle = { σ.setPhase p .idle with stored := some (formatInt id) } := by
          simp [State.setPhase]
        rw [State.putValue, if_pos hc, hidle]
        exact .store p id (follows_of_holds hid hc)
      · rw [State.putValue, if_neg hc, setPhase_setPhase]
        exact .move p _ trivial
    · cases h
  | putFails p =>
    simp only [State.step] at h
    split at h
    · cases h
      exact .move p _ trivial
    · cases h

end Effects

/-! ### The invariant -/

/-- The ids given out decrease from the latest on, and none is above the stored number. -/
structure Inv (σ : State) : Prop where
  phase : ∀ p, PhaseOk σ.stored (σ.phase p)
  follows : ∀ r ∈ σ.returned, Follows r.1 r.2
  below : ∀ r ∈ σ.returned, ∃ v, σ.value = some v ∧ r.2 ≤ v
  sorted : (σ.returned.map Prod.snd).Pairwise (· > ·)

/-- The stored number of `σ` is not above that of `σ'`. -/
def Grows (σ σ' : State) : Prop :=
  ∀ v, σ.value = some v → ∃ v', σ'.value = some v' ∧ v ≤ v'

lemma Grows.refl (σ : State) : Grows σ σ := fun v hv => ⟨v, hv, Int64.le_refl v⟩

lemma Grows.trans {σ σ' σ'' : State} (h : Grows σ σ') (h' : Grows σ' σ'') : Grows σ σ'' := by
  intro v hv
  obtain ⟨v', hv', hle⟩ := h v hv
  obtain ⟨v'', hv'', hle'⟩ := h' v' hv'
  exact ⟨v'', hv'', Int64.le_trans hle hle'⟩

lemma inv_start (stored : Option Bytes) : Inv (start stored) where
  phase _ := trivial
  follows := by simp [start]
  below := by simp [start]
  sorted := by simp [start]

lemma lt_add_one {v : Int64} (h : v ≠ Int64.maxValue) : v < v + 1 := by
  have hmax : Int64.maxValue.toInt = 9223372036854775807 := by decide
  have hne : v.toInt ≠ 9223372036854775807 := fun he =>
    h (Int64.toInt_inj.mp (he.trans hmax.symm))
  have hlo := v.le_toInt
  have hhi := v.toInt_lt
  have hone : (1 : Int64).toInt = 1 := by decide
  rw [Int64.lt_iff_toInt_lt, Int64.toInt_add, hone, Int.bmod_eq_of_le (by omega) (by omega)]
  omega

lemma lt_of_follows {σ : State} {id v : Int64} (hlast : σ.Lasts) (h : Follows σ.stored id)
    (hv : σ.value = some v) : v < id := by
  cases hs : σ.stored with
  | none => simp [State.value, hs] at hv
  | some b =>
    rw [hs] at h
    obtain ⟨w, hw, rfl⟩ := h
    have heq : w = v := by simpa [State.value, hs, hw] using hv
    subst heq
    exact lt_add_one fun he => hlast (by rw [hv, he])

lemma phaseOk_stored {stored : Option Bytes} {b : Bytes} {phase : Phase}
    (h : PhaseOk stored phase) : PhaseOk (some b) phase := by
  cases phase with
  | idle => trivial
  | reading id => exact fun hb => nomatch hb
  | putting cmp id =>
    cases cmp with
    | absent => exact h
    | value c => exact ⟨by simp, h.2⟩

section Step

variable {σ σ' : State}

lemma inv_setPhase {p : ProcessID} {phase : Phase} (hinv : Inv σ) (h : PhaseOk σ.stored phase) :
    Inv (σ.setPhase p phase) where
  phase q := by
    by_cases hq : q = p
    · subst hq
      simpa [State.setPhase] using h
    · simpa [State.setPhase, hq] using hinv.phase q
  follows := hinv.follows
  below := hinv.below
  sorted := hinv.sorted

lemma value_store {id : Int64} (h : σ.stored = some (formatInt id)) : σ.value = some id := by
  simp [State.value, h, parseInt_formatInt]

lemma grows_store {p : ProcessID} {id : Int64} (hlast : σ.Lasts) (h : Follows σ.stored id) :
    Grows σ { σ.setPhase p .idle with stored := some (formatInt id) } := by
  intro v hv
  exact ⟨id, value_store rfl, Int64.le_of_lt (lt_of_follows hlast h hv)⟩

lemma inv_store {p : ProcessID} {id : Int64} (hinv : Inv σ) (hlast : σ.Lasts)
    (h : Follows σ.stored id) :
    Inv { σ.setPhase p .idle with stored := some (formatInt id) } where
  phase q := by
    have hidle : Inv (σ.setPhase p .idle) := inv_setPhase hinv trivial
    exact phaseOk_stored (hidle.phase q)
  follows := hinv.follows
  below r hr := by
    obtain ⟨v, hv, hle⟩ := hinv.below r hr
    exact ⟨id, value_store rfl, Int64.le_trans hle (Int64.le_of_lt (lt_of_follows hlast h hv))⟩
  sorted := hinv.sorted

lemma inv_give {p : ProcessID} {id : Int64} (hinv : Inv σ) (hlast : σ.Lasts)
    (h : Follows σ.stored id) :
    Inv { σ.setPhase p .idle with
      stored := some (formatInt id), returned := (σ.stored, id) :: σ.returned } where
  phase := (inv_store hinv hlast h).phase
  follows r hr := by
    obtain rfl | hr := List.mem_cons.mp hr
    · exact h
    · exact hinv.follows r hr
  below r hr := by
    obtain rfl | hr := List.mem_cons.mp hr
    · exact ⟨id, value_store rfl, Int64.le_refl id⟩
    · exact (inv_store (p := p) hinv hlast h).below r hr
  sorted := by
    rw [List.map_cons, List.pairwise_cons]
    refine ⟨fun i hi => ?_, hinv.sorted⟩
    obtain ⟨r, hr, rfl⟩ := List.mem_map.mp hi
    obtain ⟨v, hv, hle⟩ := hinv.below r hr
    exact Int64.lt_of_le_of_lt hle (lt_of_follows hlast h hv)

lemma step_inv {a : Action} (hinv : Inv σ) (hlast : σ.Lasts) (h : σ.step a = some σ') :
    Inv σ' ∧ Grows σ σ' := by
  cases step_effect hinv.phase h with
  | move p phase hp => exact ⟨inv_setPhase hinv hp, Grows.refl σ⟩
  | store p id hid => exact ⟨inv_store hinv hlast hid, grows_store hlast hid⟩
  | give p id hid => exact ⟨inv_give hinv hlast hid, grows_store (p := p) hlast hid⟩

lemma run_inv {l : List Action} (hinv : Inv σ)
    (hlast : Steps.Along State.step (fun σ _ => σ.Lasts) σ l)
    (hrun : Steps.run State.step σ l = some σ') : Inv σ' ∧ Grows σ σ' := by
  refine Steps.invariant (P := fun τ => Inv τ ∧ Grows σ τ) ?_ ⟨hinv, Grows.refl σ⟩ hlast hrun
  intro τ a τ' hτ hl hs
  obtain ⟨hi, hg⟩ := step_inv hτ.1 hl hs
  exact ⟨hi, hτ.2.trans hg⟩

end Step

/-- **Allocated ids are unique.** In every run of any number of processes, from any content of
the key, the ids returned are distinct, each follows the value its put replaced, and the stored
number grows from any point of the run to its end. The ids last as long as the largest number
has not been stored. -/
theorem newID_unique {stored : Option Bytes} {l : List Action} {σ : State}
    (hrun : Steps.run State.step (start stored) l = some σ)
    (hlast : Steps.Along State.step (fun σ _ => σ.Lasts) (start stored) l) :
    (σ.returned.map Prod.snd).Nodup ∧ (∀ r ∈ σ.returned, Follows r.1 r.2) ∧
      ∀ l₁ l₂ τ, l = l₁ ++ l₂ → Steps.run State.step (start stored) l₁ = some τ → Grows τ σ := by
  have hinv := (run_inv (inv_start stored) hlast hrun).1
  have hdistinct : (σ.returned.map Prod.snd).Nodup := by
    refine hinv.sorted.imp fun {a b} (h : b < a) hab => ?_
    subst hab
    exact Int64.lt_irrefl h
  refine ⟨hdistinct, hinv.follows, ?_⟩
  rintro l₁ l₂ τ rfl hτ
  obtain ⟨u, hu, hrest⟩ := Steps.run_append.mp hrun
  rw [hτ] at hu
  cases hu
  obtain ⟨hfirst, hsecond⟩ := Steps.along_append hτ hlast
  exact (run_inv (run_inv (inv_start stored) hfirst hτ).1 hsecond hrest).2

/-- Two processes race to create the key; the one that loses goes round again. -/
def race : List Action :=
  [.newID 0, .newID 1, .getValues 0, .getValues 1, .put 1, .put 0, .getValues 0, .put 0]

theorem newID_unique_race :
    ∃ σ, Steps.run State.step (start none) race = some σ ∧
      σ.returned = [(some [0x31], 2), (none, 1)] ∧ (σ.returned.map Prod.snd).Nodup := by
  obtain ⟨σ, hσ⟩ : ∃ σ, Steps.run State.step (start none) race = some σ := ⟨_, rfl⟩
  have hids : (Steps.run State.step (start none) race).map State.returned =
      some [(some [0x31], 2), (none, 1)] := by decide +kernel
  rw [hσ] at hids
  exact ⟨σ, hσ, Option.some.inj hids, (newID_unique hσ (by decide +kernel)).1⟩

end Ancestor.IdAllocator
