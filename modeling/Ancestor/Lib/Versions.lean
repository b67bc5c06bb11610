import Mathlib

/-!
Multi-version values: partial functions from a linear order of timestamps, and what a read
at a timestamp finds in one.
-/

universe u v

namespace Versions

variable {T : Type u} {V : Type v} [LinearOrder T] {f g : T → Option V} {ts c t : T}
  {r r' : Option V} {v : V}

/-- A read at `ts` finds the newest version at or below `ts`, or nothing when there is none. -/
def Finds (f : T → Option V) (ts : T) : Option V → Prop
  | some v => ∃ t ≤ ts, f t = some v ∧ ∀ u, t < u → u ≤ ts → f u = none
  | none => ∀ u ≤ ts, f u = none

lemma Finds.congr (h : Finds f ts r) (hfg : ∀ u ≤ ts, g u = f u) : Finds g ts r := by
  cases r with
  | none => exact fun u hu => (hfg u hu).trans (h u hu)
  | some v =>
    obtain ⟨t, ht, hv, hmax⟩ := h
    exact ⟨t, ht, (hfg t ht).trans hv, fun u htu hu => (hfg u hu).trans (hmax u htu hu)⟩

/-- **A read has one answer.** -/
theorem Finds.unique (h : Finds f ts r) (h' : Finds f ts r') : r = r' := by
  cases r with
  | none =>
    cases r' with
    | none => rfl
    | some v' =>
      obtain ⟨t, ht, hv, -⟩ := h'
      simp [h t ht] at hv
  | some v =>
    obtain ⟨t, ht, hv, hmax⟩ := h
    cases r' with
    | none => simp [h' t ht] at hv
    | some v' =>
      obtain ⟨t', ht', hv', hmax'⟩ := h'
      rcases lt_trichotomy t t' with hlt | rfl | hlt
      · simp [hmax t' hlt ht'] at hv'
      · rw [← hv, hv']
      · simp [hmax' t hlt ht] at hv

/-- The version at a timestamp above every other one is what a read there finds. -/
lemma finds_some (hv : f t = some v) (ht : t ≤ ts) (h : ∀ u, f u ≠ none → u ≤ ts → u ≤ t) :
    Finds f ts (some v) :=
  ⟨t, ht, hv, fun u htu hu => by_contra fun hne => absurd (h u hne hu) (not_le.mpr htu)⟩

/-- Reads at two timestamps agree when no version lies between them. -/
lemma Finds.mono (h : Finds f ts r) (hle : ts ≤ c) (hno : ∀ u, ts < u → u ≤ c → f u = none) :
    Finds f c r := by
  cases r with
  | none =>
    intro u hu
    rcases le_or_gt u ts with hut | hut
    · exact h u hut
    · exact hno u hut hu
  | some v =>
    obtain ⟨t, ht, hv, hmax⟩ := h
    refine ⟨t, ht.trans hle, hv, fun u htu hu => ?_⟩
    rcases le_or_gt u ts with hut | hut
    · exact hmax u htu hut
    · exact hno u hut hu

end Versions
