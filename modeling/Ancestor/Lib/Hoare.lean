import Mathlib

/-!
Triples for programs with a state and errors that keep the state.

A triple says where a program ends from a precondition, one postcondition for success and one
for failure. The rules follow the program: a sequence passes on the first postcondition, and
`outcome` turns a failure into a value.
-/

universe u

namespace Hoare

variable {ε σ α β : Type u}

/-! ### Running a program -/

section Run

variable {m : EStateM ε σ α} {f : α → EStateM ε σ β} {s s' : σ} {a : α} {e : ε}

lemma run_bind_ok (h : m s = .ok a s') : (m >>= f) s = f a s' := by
  show EStateM.bind m f s = _
  rw [EStateM.bind, h]

lemma run_bind_error (h : m s = .error e s') : (m >>= f) s = .error e s' := by
  show EStateM.bind m f s = _
  rw [EStateM.bind, h]

lemma run_bind_get {g : σ → EStateM ε σ β} (s : σ) : (getThe σ >>= g) s = g s s := rfl

/-- A sequence that succeeds has succeeded in both of its parts. -/
lemma of_bind_ok {b : β} (h : (m >>= f) s = .ok b s') :
    ∃ a s₁, m s = .ok a s₁ ∧ f a s₁ = .ok b s' := by
  cases hm : m s with
  | ok a s₁ => exact ⟨a, s₁, rfl, by rw [← h, run_bind_ok hm]⟩
  | error e s₁ =>
    rw [run_bind_error hm] at h
    cases h

/-- A loop whose turns succeed and keep `I` succeeds and keeps it. -/
lemma forM_ok {γ : Type*} {f : γ → EStateM ε σ PUnit} {I : σ → Prop} {l : List γ}
    (hf : ∀ c ∈ l, ∀ s, I s → ∃ s', f c s = .ok ⟨⟩ s' ∧ I s') {s : σ} (hs : I s) :
    ∃ s', l.forM f s = .ok ⟨⟩ s' ∧ I s' := by
  induction l generalizing s with
  | nil => exact ⟨s, rfl, hs⟩
  | cons c l ih =>
    obtain ⟨s₁, hone, hs₁⟩ := hf c List.mem_cons_self s hs
    obtain ⟨s', hrun, hs'⟩ := ih (fun c' hc' => hf c' (.tail _ hc')) hs₁
    refine ⟨s', ?_, hs'⟩
    show (f c >>= fun _ => l.forM f) s = _
    rw [run_bind_ok hone]
    exact hrun

/-- The state a program leaves behind, whether it succeeds or fails. -/
def stateAfter (m : EStateM ε σ α) (s : σ) : σ :=
  match m s with
  | .ok _ s' => s'
  | .error _ s' => s'

lemma stateAfter_ok (h : m s = .ok a s') : stateAfter m s = s' := by
  rw [stateAfter, h]

lemma stateAfter_error (h : m s = .error e s') : stateAfter m s = s' := by
  rw [stateAfter, h]

lemma stateAfter_congr {m' : EStateM ε σ α} (h : m s = m' s') :
    stateAfter m s = stateAfter m' s' := by
  rw [stateAfter, stateAfter, h]

lemma stateAfter_bind_pure (m : EStateM ε σ α) (g : α → β) (s : σ) :
    stateAfter (m >>= fun a => pure (g a)) s = stateAfter m s := by
  cases h : m s with
  | ok a s' =>
    rw [stateAfter_ok h, stateAfter_congr (run_bind_ok h)]
    rfl
  | error e s' => rw [stateAfter_error h, stateAfter_error (run_bind_error h)]

end Run

/-! ### Triples -/

/-- From `P`, the program `m` ends in `Q` when it succeeds and in `E` when it fails. -/
def Triple (P : σ → Prop) (m : EStateM ε σ α) (Q : α → σ → Prop) (E : ε → σ → Prop) : Prop :=
  ∀ s, P s → match m s with
    | .ok a s' => Q a s'
    | .error e s' => E e s'

variable {P R : σ → Prop} {Q : α → σ → Prop} {S : β → σ → Prop} {E F : ε → σ → Prop}
  {m : EStateM ε σ α}

lemma Triple.of_ok (h : Triple P m Q E) {s s' : σ} {a : α} (hs : P s) (hm : m s = .ok a s') :
    Q a s' := by
  have := h s hs
  rwa [hm] at this

lemma Triple.of_error (h : Triple P m Q E) {s s' : σ} {e : ε} (hs : P s)
    (hm : m s = .error e s') : E e s' := by
  have := h s hs
  rwa [hm] at this

lemma triple_pure {a : α} (h : ∀ s, P s → Q a s) : Triple P (pure a) Q E := h

lemma triple_throw {e : ε} (h : ∀ s, P s → E e s) :
    Triple P (throw e : EStateM ε σ α) Q E := h

lemma Triple.bind {f : α → EStateM ε σ β} (h : Triple P m Q E)
    (hf : ∀ a, Triple (Q a) (f a) S E) : Triple P (m >>= f) S E := by
  intro s hs
  have hm := h s hs
  show match EStateM.bind m f s with
    | .ok a s' => S a s'
    | .error e s' => E e s'
  rw [EStateM.bind]
  cases hrun : m s with
  | ok a s' =>
    rw [hrun] at hm
    exact hf a s' hm
  | error e s' =>
    rw [hrun] at hm
    exact hm

lemma Triple.get_bind {g : σ → EStateM ε σ β} (hg : ∀ s, Triple P (g s) S E) :
    Triple P (getThe σ >>= g) S E :=
  fun s hs => hg s s hs

lemma Triple.imp (h : Triple P m Q E) (hP : ∀ s, R s → P s) {Q' : α → σ → Prop}
    (hQ : ∀ a s, Q a s → Q' a s) (hE : ∀ e s, E e s → F e s) : Triple R m Q' F := by
  intro s hs
  have hm := h s (hP s hs)
  cases hrun : m s with
  | ok a s' =>
    rw [hrun] at hm
    exact hQ a s' hm
  | error e s' =>
    rw [hrun] at hm
    exact hE e s' hm

/-- A program whose failure its caller looks at. -/
def outcome (m : EStateM ε σ α) : EStateM ε σ (Except ε α) := fun s =>
  match m s with
  | .ok a s => .ok (.ok a) s
  | .error e s => .ok (.error e) s

lemma Triple.outcome (h : Triple P m Q E) :
    Triple P (outcome m) (fun r s => match r with
      | .ok a => Q a s
      | .error e => E e s) F := by
  intro s hs
  have hm := h s hs
  unfold Hoare.outcome
  cases hrun : m s <;> simpa only [hrun] using hm

/-! ### Invariants of a program -/

/-- The program keeps `I`, whether it succeeds or fails. -/
def Keeps (I : σ → Prop) (m : EStateM ε σ α) : Prop := Triple I m (fun _ => I) fun _ => I

section Keeps

variable {I : σ → Prop}

lemma keeps_pure (a : α) : Keeps I (pure a : EStateM ε σ α) := triple_pure fun _ => id

lemma keeps_throw (e : ε) : Keeps I (throw e : EStateM ε σ α) := triple_throw fun _ => id

lemma keeps_modify {f : σ → σ} (h : ∀ s, I s → I (f s)) :
    Keeps I (modify f : EStateM ε σ PUnit) := h

lemma Keeps.bind {f : α → EStateM ε σ β} (h : Keeps I m) (hf : ∀ a, Keeps I (f a)) :
    Keeps I (m >>= f) := Triple.bind h hf

lemma Keeps.outcome (h : Keeps I m) : Keeps I (outcome m) := by
  refine (Triple.outcome h).imp (fun _ => id) (fun r s hr => ?_) fun _ _ => id
  cases r <;> exact hr

end Keeps

end Hoare
