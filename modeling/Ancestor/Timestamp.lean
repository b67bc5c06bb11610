import Mathlib

/-!
Timestamps of the hybrid clock (`meta/data.go`): a wall time and a logical counter, ordered
lexicographically.
-/

namespace Ancestor

structure Timestamp where
  wallTime : Int64
  logical : Int32
  deriving DecidableEq, Repr

namespace Timestamp

def less (t s : Timestamp) : Bool :=
  t.wallTime < s.wallTime || (t.wallTime == s.wallTime && t.logical < s.logical)

def large (t s : Timestamp) : Bool :=
  t.wallTime > s.wallTime || (t.wallTime == s.wallTime && t.logical > s.logical)

def equal (t s : Timestamp) : Bool :=
  t.wallTime == s.wallTime && t.logical == s.logical

/-- The next later timestamp. `none` is the panic on the largest one. -/
def next (t : Timestamp) : Option Timestamp :=
  if t.logical = Int32.maxValue then
    if t.wallTime = Int64.maxValue then none
    else some { wallTime := t.wallTime + 1, logical := 0 }
  else some { wallTime := t.wallTime, logical := t.logical + 1 }

def zero : Timestamp := ⟨0, 0⟩

/-! ### The order -/

def key (t : Timestamp) : Lex (Int × Int) := toLex (t.wallTime.toInt, t.logical.toInt)

lemma key_injective : Function.Injective key := by
  rintro ⟨w, l⟩ ⟨w', l'⟩ h
  simp only [key, EmbeddingLike.apply_eq_iff_eq, Prod.mk.injEq, Int64.toInt_inj,
    Int32.toInt_inj] at h
  rw [h.1, h.2]

instance : LinearOrder Timestamp := LinearOrder.lift' key key_injective

lemma lt_iff (t s : Timestamp) :
    t < s ↔ t.wallTime < s.wallTime ∨ t.wallTime = s.wallTime ∧ t.logical < s.logical := by
  show key t < key s ↔ _
  rw [key, key, Prod.Lex.toLex_lt_toLex]
  simp only [Int64.toInt_inj, Int64.lt_iff_toInt_lt, Int32.lt_iff_toInt_lt]

@[simp] lemma less_iff (t s : Timestamp) : t.less s = true ↔ t < s := by
  rw [lt_iff]; simp [less]

@[simp] lemma large_iff (t s : Timestamp) : t.large s = true ↔ s < t := by
  rw [lt_iff, @eq_comm _ s.wallTime]; simp [large]

@[simp] lemma equal_iff (t s : Timestamp) : t.equal s = true ↔ t = s := by
  cases t; cases s; simp [equal]

/-- Neither part is negative, as in every timestamp the oracle issues. -/
def Nonneg (t : Timestamp) : Prop := 0 ≤ t.wallTime ∧ 0 ≤ t.logical

instance (t : Timestamp) : Decidable t.Nonneg := inferInstanceAs (Decidable (_ ∧ _))

/-- **`Next` moves strictly forward.** -/
theorem lt_next {t s : Timestamp} (h : t.next = some s) : t < s := by
  unfold next at h
  rw [lt_iff]
  split_ifs at h with h1 h2 <;> cases h <;> simp only
  · left; grind
  · right; exact ⟨trivial, by grind⟩

lemma nonneg_next {t s : Timestamp} (ht : t.Nonneg) (h : t.next = some s) : s.Nonneg := by
  obtain ⟨hw, hl⟩ := ht
  unfold next at h
  split_ifs at h with h1 h2 <;> cases h
  · exact ⟨by grind, Int32.le_refl 0⟩
  · exact ⟨hw, by grind⟩

end Timestamp

end Ancestor
