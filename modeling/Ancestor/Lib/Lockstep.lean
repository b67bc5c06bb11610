import Ancestor.Lib.Hoare

/-!
Two runs side by side.

`Paired R m m' Q E` says of two programs that they end alike from states that `R` relates: both
succeed, with results that `Q` relates, or both fail, with the same error, and `R` relates the
states they leave. `Lockstep R E m` says it of one program that is run twice. The rules follow the
program, as those of the triples do.
-/

universe u

namespace Hoare

variable {ε σ τ α β γ δ : Type u}

def Paired (R : σ → τ → Prop) (m : EStateM ε σ α) (m' : EStateM ε τ β) (Q : α → β → Prop)
    (E : ε → Prop) : Prop :=
  ∀ s t, R s t →
    (∃ a s' b t', m s = .ok a s' ∧ m' t = .ok b t' ∧ Q a b ∧ R s' t') ∨
      ∃ e s' t', m s = .error e s' ∧ m' t = .error e t' ∧ E e ∧ R s' t'

/-- One program, run from two states: the results are the same. -/
def Lockstep (R : σ → σ → Prop) (E : ε → Prop) (m : EStateM ε σ α) : Prop := Paired R m m Eq E

/-- The result of a program, without the state it leaves. -/
def returned (m : EStateM ε σ α) (s : σ) : Except ε α :=
  match m s with
  | .ok a _ => .ok a
  | .error e _ => .error e

section Rules

variable {R : σ → τ → Prop} {m : EStateM ε σ α} {m' : EStateM ε τ β} {Q : α → β → Prop}
  {E F : ε → Prop}

lemma paired_pure {a : α} {b : β} (h : Q a b) :
    Paired R (pure a : EStateM ε σ α) (pure b : EStateM ε τ β) Q E :=
  fun s t hst => .inl ⟨a, s, b, t, rfl, rfl, h, hst⟩

lemma paired_throw {e : ε} (h : E e) :
    Paired R (throw e : EStateM ε σ α) (throw e : EStateM ε τ β) Q E :=
  fun s t hst => .inr ⟨e, s, t, rfl, rfl, h, hst⟩

lemma Paired.bind {P : γ → δ → Prop} {f : α → EStateM ε σ γ} {f' : β → EStateM ε τ δ}
    (h : Paired R m m' Q E) (hf : ∀ a b, Q a b → Paired R (f a) (f' b) P E) :
    Paired R (m >>= f) (m' >>= f') P E := by
  intro s t hst
  rcases h s t hst with ⟨a, s', b, t', hm, hm', hQ, hst'⟩ | ⟨e, s', t', hm, hm', hE, hst'⟩
  · rw [run_bind_ok hm, run_bind_ok hm']
    exact hf a b hQ s' t' hst'
  · exact .inr ⟨e, s', t', run_bind_error hm, run_bind_error hm', hE, hst'⟩

lemma Paired.imp (h : Paired R m m' Q E) {Q' : α → β → Prop} (hQ : ∀ a b, Q a b → Q' a b)
    (hE : ∀ e, E e → F e) : Paired R m m' Q' F := by
  intro s t hst
  rcases h s t hst with ⟨a, s', b, t', hm, hm', hab, hst'⟩ | ⟨e, s', t', hm, hm', he, hst'⟩
  · exact .inl ⟨a, s', b, t', hm, hm', hQ a b hab, hst'⟩
  · exact .inr ⟨e, s', t', hm, hm', hE e he, hst'⟩

/-- The states that the two programs leave are related, however they end. -/
lemma Paired.stateAfter (h : Paired R m m' Q E) {s : σ} {t : τ} (hst : R s t) :
    R (stateAfter m s) (Hoare.stateAfter m' t) := by
  rcases h s t hst with ⟨a, s', b, t', hm, hm', -, hst'⟩ | ⟨e, s', t', hm, hm', -, hst'⟩
  · rwa [stateAfter_ok hm, stateAfter_ok hm']
  · rwa [stateAfter_error hm, stateAfter_error hm']

end Rules

section One

variable {R : σ → σ → Prop} {E F : ε → Prop} {m : EStateM ε σ α} {f : α → EStateM ε σ β}

lemma lockstep_pure (a : α) : Lockstep R E (pure a : EStateM ε σ α) := paired_pure rfl

lemma lockstep_throw {e : ε} (h : E e) : Lockstep R E (throw e : EStateM ε σ α) := paired_throw h

lemma Lockstep.bind (h : Lockstep R E m) (hf : ∀ a, Lockstep R E (f a)) :
    Lockstep R E (m >>= f) :=
  Paired.bind h fun a _ hab => hab ▸ hf a

lemma lockstep_modify {g : σ → σ} (h : ∀ s t, R s t → R (g s) (g t)) :
    Lockstep R E (modify g : EStateM ε σ PUnit) :=
  fun s t hst => .inl ⟨⟨⟩, g s, ⟨⟩, g t, rfl, rfl, rfl, h s t hst⟩

/-- A failure that the caller looks at is the same failure on both sides. -/
lemma Lockstep.outcome (h : Lockstep R E m) :
    Paired R (outcome m) (Hoare.outcome m)
      (fun r r' => r = r' ∧ ∀ e, r = .error e → E e) F := by
  intro s t hst
  rcases h s t hst with ⟨a, s', b, t', hm, hm', hab, hst'⟩ | ⟨e, s', t', hm, hm', he, hst'⟩
  · refine .inl ⟨.ok a, s', .ok b, t', ?_, ?_, ⟨by rw [hab], fun e he => by cases he⟩, hst'⟩
    · rw [Hoare.outcome, hm]
    · rw [Hoare.outcome, hm']
  · refine .inl ⟨.error e, s', .error e, t', ?_, ?_, ⟨rfl, fun e' he' => ?_⟩, hst'⟩
    · rw [Hoare.outcome, hm]
    · rw [Hoare.outcome, hm']
    · cases he'
      exact he

/-- What a program returns does not depend on which of two related states it is run from. -/
lemma Lockstep.returned_eq (h : Lockstep R E m) {s t : σ} (hst : R s t) :
    returned m s = returned m t := by
  rcases h s t hst with ⟨a, s', b, t', hm, hm', rfl, -⟩ | ⟨e, s', t', hm, hm', -, -⟩ <;>
    rw [returned, returned, hm, hm']

end One

end Hoare
