import Mathlib

/-!
Runs of a machine given by a partial step function, and the invariant rule.

`run` follows a list of actions and fails when one of them is not enabled. `Along` says
that every step of a run meets a condition on the state before it, and `Always` that a
property holds in every state a run passes through.
-/

universe u v

namespace Steps

variable {σ : Type u} {α : Type v} (step : σ → α → Option σ)

def run (s : σ) : List α → Option σ
  | [] => some s
  | a :: l => (step s a).bind fun s' => run s' l

/-- Every step of the run from `s` meets `C` in the state it is taken in. -/
def Along (C : σ → α → Prop) (s : σ) : List α → Prop
  | [] => True
  | a :: l => C s a ∧ ∀ s', step s a = some s' → Along C s' l

/-- `P` holds in every state the run from `s` passes through. -/
def Always (P : σ → Prop) (s : σ) : List α → Prop
  | [] => P s
  | a :: l => P s ∧ ∀ s', step s a = some s' → Always P s' l

def decAlong (C : σ → α → Prop) [∀ s a, Decidable (C s a)] (s : σ) :
    (l : List α) → Decidable (Along step C s l)
  | [] => isTrue trivial
  | a :: l =>
    match h : step s a with
    | none => decidable_of_iff (C s a) ⟨fun hC => ⟨hC, fun _ hs => by simp [h] at hs⟩, And.left⟩
    | some t =>
      have : Decidable (Along step C t l) := decAlong C t l
      decidable_of_iff (C s a ∧ Along step C t l)
        ⟨fun hC => ⟨hC.1, fun s' hs => by rw [h] at hs; cases hs; exact hC.2⟩,
          fun hC => ⟨hC.1, hC.2 t h⟩⟩

instance (C : σ → α → Prop) [∀ s a, Decidable (C s a)] (s : σ) (l : List α) :
    Decidable (Along step C s l) := decAlong step C s l

variable {step}

@[simp] lemma run_nil (s : σ) : run step s [] = some s := rfl

lemma run_cons {s s' : σ} {a : α} {l : List α} :
    run step s (a :: l) = some s' ↔ ∃ t, step s a = some t ∧ run step t l = some s' := by
  simp [run, Option.bind_eq_some_iff]

lemma run_append {s s' : σ} {l l' : List α} :
    run step s (l ++ l') = some s' ↔ ∃ t, run step s l = some t ∧ run step t l' = some s' := by
  induction l generalizing s with
  | nil => simp
  | cons a l ih =>
    simp only [List.cons_append, run_cons, ih]
    constructor
    · rintro ⟨t, ht, u, hu, hs⟩
      exact ⟨u, ⟨t, ht, hu⟩, hs⟩
    · rintro ⟨u, ⟨t, ht, hu⟩, hs⟩
      exact ⟨t, ht, u, hu, hs⟩

lemma along_append {C : σ → α → Prop} {s t : σ} {l l' : List α}
    (hrun : run step s l = some t) (h : Along step C s (l ++ l')) :
    Along step C s l ∧ Along step C t l' := by
  induction l generalizing s with
  | nil =>
    cases hrun
    exact ⟨trivial, h⟩
  | cons a l ih =>
    obtain ⟨u, hu, hl⟩ := run_cons.mp hrun
    obtain ⟨hC, htl⟩ := h
    refine ⟨⟨hC, fun s' hs' => ?_⟩, (ih hl (htl u hu)).2⟩
    rw [hu] at hs'
    cases hs'
    exact (ih hl (htl u hu)).1

lemma Always.head {P : σ → Prop} {s : σ} {l : List α} (h : Always step P s l) : P s := by
  cases l with
  | nil => exact h
  | cons a l => exact h.1

lemma Along.imp {C D : σ → α → Prop} (hCD : ∀ s a, C s a → D s a) {s : σ} {l : List α}
    (h : Along step C s l) : Along step D s l := by
  induction l generalizing s with
  | nil => trivial
  | cons a l ih => exact ⟨hCD s a h.1, fun s' hs' => ih (h.2 s' hs')⟩

lemma Along.and {C D : σ → α → Prop} {s : σ} {l : List α} (h : Along step C s l)
    (h' : Along step D s l) : Along step (fun s a => C s a ∧ D s a) s l := by
  induction l generalizing s with
  | nil => trivial
  | cons a l ih => exact ⟨⟨h.1, h'.1⟩, fun s' hs' => ih (h.2 s' hs') (h'.2 s' hs')⟩

lemma Always.imp {P Q : σ → Prop} (hPQ : ∀ s, P s → Q s) {s : σ} {l : List α}
    (h : Always step P s l) : Always step Q s l := by
  induction l generalizing s with
  | nil => exact hPQ s h
  | cons a l ih => exact ⟨hPQ s h.1, fun s' hs' => ih (h.2 s' hs')⟩

lemma along_of_forall {C : σ → α → Prop} (hC : ∀ s a, C s a) (s : σ) (l : List α) :
    Along step C s l := by
  induction l generalizing s with
  | nil => trivial
  | cons a l ih => exact ⟨hC s a, fun s' _ => ih s'⟩

/-- A condition on the actions alone is one on all actions of the run. -/
lemma Along.and_forall {C : σ → α → Prop} {D : α → Prop} {s : σ} {l : List α}
    (h : Along step C s l) (hD : ∀ a ∈ l, D a) : Along step (fun s a => D a ∧ C s a) s l := by
  induction l generalizing s with
  | nil => trivial
  | cons a l ih =>
    refine ⟨⟨hD a List.mem_cons_self, h.1⟩, fun s' hs' => ih (h.2 s' hs') fun b hb => ?_⟩
    exact hD b (List.mem_cons_of_mem a hb)

/-- Machines that agree on every step of a run have that run in common. -/
lemma run_congr {step' : σ → α → Option σ} {C : σ → α → Prop}
    (hstep : ∀ s a, C s a → step' s a = step s a) {s : σ} {l : List α} (hC : Along step C s l) :
    run step' s l = run step s l := by
  induction l generalizing s with
  | nil => rfl
  | cons a l ih =>
    rw [run, run, hstep s a hC.1]
    cases hs : step s a with
    | none => rfl
    | some t => exact ih (hC.2 t hs)

/-- **The invariant rule**: what every step that meets the condition keeps, every run of
such steps keeps. -/
theorem invariant {P : σ → Prop} {C : σ → α → Prop}
    (hstep : ∀ s a s', P s → C s a → step s a = some s' → P s')
    {s s' : σ} {l : List α} (h0 : P s) (hC : Along step C s l)
    (hrun : run step s l = some s') : P s' := by
  induction l generalizing s with
  | nil =>
    cases hrun
    exact h0
  | cons a l ih =>
    obtain ⟨t, ht, hl⟩ := run_cons.mp hrun
    exact ih (hstep s a t h0 hC.1 ht) (hC.2 t ht) hl

/-- What steps that meet the condition keep holds in every state of a run of such steps. -/
theorem always_of_along {P : σ → Prop} {C : σ → α → Prop}
    (hstep : ∀ s a s', P s → C s a → step s a = some s' → P s') {s : σ} {l : List α} (h0 : P s)
    (hC : Along step C s l) : Always step P s l := by
  induction l generalizing s with
  | nil => exact h0
  | cons a l ih => exact ⟨h0, fun t ht => ih (hstep s a t h0 hC.1 ht) (hC.2 t ht)⟩

/-- **The progress rule**: when every step that meets the condition can be taken and keeps
`P`, every such run goes through and ends in `P`. -/
theorem progress {P : σ → Prop} {C : σ → α → Prop}
    (hstep : ∀ s a, P s → C s a → ∃ s', step s a = some s' ∧ P s')
    {s : σ} {l : List α} (h0 : P s) (hC : Along step C s l) :
    ∃ s', run step s l = some s' ∧ P s' := by
  induction l generalizing s with
  | nil => exact ⟨s, rfl, h0⟩
  | cons a l ih =>
    obtain ⟨t, ht, hP⟩ := hstep s a h0 hC.1
    obtain ⟨s', hs', hP'⟩ := ih hP (hC.2 t ht)
    exact ⟨s', run_cons.mpr ⟨t, ht, hs'⟩, hP'⟩

/-- **The exact condition rule**: when a step out of `P` ends in `P` exactly if it meets the
condition, a run stays in `P` exactly if all its steps meet it. `I` is what every step keeps. -/
theorem always_iff_along {I P : σ → Prop} {C : σ → α → Prop}
    (hI : ∀ s a s', I s → step s a = some s' → I s')
    (hstep : ∀ s a s', I s → P s → step s a = some s' → (P s' ↔ C s a))
    {s s' : σ} {l : List α} (hI0 : I s) (h0 : P s) (hrun : run step s l = some s') :
    Always step P s l ↔ Along step C s l := by
  induction l generalizing s with
  | nil => exact iff_of_true h0 trivial
  | cons a l ih =>
    obtain ⟨t, ht, hl⟩ := run_cons.mp hrun
    have hiff := hstep s a t hI0 h0 ht
    have hIt := hI s a t hI0 ht
    constructor
    · rintro ⟨-, hP⟩
      have hPt := (hP t ht).head
      refine ⟨hiff.mp hPt, fun u hu => ?_⟩
      rw [ht] at hu
      cases hu
      exact (ih hIt hPt hl).mp (hP t ht)
    · rintro ⟨hC, hl'⟩
      refine ⟨h0, fun u hu => ?_⟩
      rw [ht] at hu
      cases hu
      exact (ih hIt (hiff.mpr hC) hl).mpr (hl' t ht)

/-- **The exact guard rule**: when the steps that can be taken are those that meet the condition,
the runs that go through are those whose steps all meet it. `I` is what every step keeps. -/
theorem run_iff_along {I : σ → Prop} {C : σ → α → Prop}
    (hI : ∀ s a s', I s → step s a = some s' → I s')
    (hstep : ∀ s a, I s → ((∃ s', step s a = some s') ↔ C s a))
    {s : σ} {l : List α} (h0 : I s) :
    (∃ s', run step s l = some s') ↔ Along step C s l := by
  induction l generalizing s with
  | nil => exact iff_of_true ⟨s, rfl⟩ trivial
  | cons a l ih =>
    constructor
    · rintro ⟨s', hrun⟩
      obtain ⟨t, ht, hl⟩ := run_cons.mp hrun
      refine ⟨(hstep s a h0).mp ⟨t, ht⟩, fun u hu => ?_⟩
      rw [ht] at hu
      cases hu
      exact (ih (hI s a t h0 ht)).mp ⟨s', hl⟩
    · rintro ⟨hC, hl⟩
      obtain ⟨t, ht⟩ := (hstep s a h0).mpr hC
      obtain ⟨s', hs'⟩ := (ih (hI s a t h0 ht)).mpr (hl t ht)
      exact ⟨s', run_cons.mpr ⟨t, ht, hs'⟩⟩

end Steps
