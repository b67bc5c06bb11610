import Mathlib

/-!
The lexicographic order of byte strings, and big-endian numbers in it.
-/

instance UInt8.instLinearOrder : LinearOrder UInt8 where
  le_refl := UInt8.le_refl
  le_trans _ _ _ := UInt8.le_trans
  lt_iff_le_not_ge a b := by
    rw [UInt8.not_le]
    exact ⟨fun h => ⟨UInt8.le_of_lt h, h⟩, fun h => h.2⟩
  le_antisymm _ _ := UInt8.le_antisymm
  le_total := UInt8.le_total
  toDecidableLE := inferInstance
  toDecidableEq := inferInstance
  toDecidableLT := inferInstance

abbrev Bytes := List UInt8

namespace Bytes

/-- Strings of one length compare by their first parts, then by what follows. -/
lemma append_lt_append_iff {a a' b b' : Bytes} (h : a.length = a'.length) :
    a ++ b < a' ++ b' ↔ a < a' ∨ a = a' ∧ b < b' := by
  induction a generalizing a' with
  | nil =>
    have : a' = [] := List.length_eq_zero_iff.mp h.symm
    subst this
    simp
  | cons x a ih =>
    rcases a' with _ | ⟨y, a'⟩
    · simp at h
    · simp only [List.cons_append, List.cons_lt_cons_iff, List.cons.injEq,
        ih (by simpa using h)]
      tauto

lemma lt_append_of_ne_nil {a b : Bytes} (h : b ≠ []) : a < a ++ b := by
  obtain ⟨x, b, rfl⟩ := List.exists_cons_of_ne_nil h
  have : a ++ [] < a ++ x :: b := List.append_left_lt (List.nil_lt_cons x b)
  simpa using this

lemma nil_le (a : Bytes) : [] ≤ a := not_lt.mp (List.not_lt_nil a)

lemma cons_le_cons {x : UInt8} {a b : Bytes} (h : a ≤ b) : x :: a ≤ x :: b := by
  refine not_lt.mp fun hlt => ?_
  rcases List.cons_lt_cons_iff.mp hlt with hx | ⟨-, hba⟩
  · exact lt_irrefl x hx
  · exact not_lt.mpr h hba

lemma cons_le_cons_of_lt {x y : UInt8} (h : x < y) (a b : Bytes) : x :: a ≤ y :: b :=
  (List.cons_lt_cons_iff.mpr (.inl h)).le

lemma lt_ff {c : UInt8} (h : c ≠ 0xff) : c < 0xff := by
  have hlt := UInt8.toNat_lt c
  have hne : c.toNat ≠ 255 := fun hc => h (UInt8.toNat_inj.mp hc)
  rw [UInt8.lt_iff_toNat_lt]
  show c.toNat < 255
  omega

/-- What lies between two strings with a common start has that start. -/
lemma exists_append_of_between {p a b k : Bytes} (h : p ++ a ≤ k) (h' : k < p ++ b) :
    ∃ c, k = p ++ c := by
  induction p generalizing k with
  | nil => exact ⟨k, rfl⟩
  | cons x p ih =>
    rcases k with _ | ⟨y, k⟩
    · exact absurd h (not_le.mpr (List.nil_lt_cons _ _))
    · rw [List.cons_append, ← not_lt, List.cons_lt_cons_iff] at h
      rw [List.cons_append, List.cons_lt_cons_iff] at h'
      rcases h' with hlt | ⟨rfl, hlt⟩
      · exact absurd (.inl hlt) h
      · obtain ⟨c, rfl⟩ := ih (not_lt.mp fun hk => h (.inr ⟨rfl, hk⟩)) hlt
        exact ⟨c, rfl⟩

/-- A run of the least character is the first string of its length, or longer. -/
lemma replicate_le {x : UInt8} {w : ℕ} {a : Bytes} (hlen : w ≤ a.length) (h : ∀ c ∈ a, x ≤ c) :
    List.replicate w x ≤ a := by
  induction w generalizing a with
  | zero => exact nil_le a
  | succ w ih =>
    rcases a with _ | ⟨c, a⟩
    · simp at hlen
    · have hrest : List.replicate w x ≤ a :=
        ih (by simpa using hlen) fun c hc => h c (List.mem_cons_of_mem _ hc)
      rw [List.replicate_succ]
      rcases (h c List.mem_cons_self).lt_or_eq with hlt | rfl
      · exact cons_le_cons_of_lt hlt _ _
      · exact cons_le_cons hrest

/-! ### Numerals of a fixed width -/

/-- The `w` lowest base-`b` digits of a number, the highest first, each written as `f` says. -/
def positional (b : ℕ) (f : ℕ → UInt8) : ℕ → ℕ → Bytes
  | 0, _ => []
  | w + 1, v => f (v / b ^ w % b) :: positional b f w v

@[simp] lemma length_positional (b : ℕ) (f : ℕ → UInt8) (w v : ℕ) :
    (positional b f w v).length = w := by
  induction w with
  | zero => rfl
  | succ w ih => simp [positional, ih]

/-- The high digits are those of the quotient. -/
lemma positional_add (b : ℕ) (f : ℕ → UInt8) (w k v : ℕ) :
    positional b f (w + k) v = positional b f w (v / b ^ k) ++ positional b f k v := by
  induction w with
  | zero => simp [positional]
  | succ w ih =>
    rw [show w + 1 + k = (w + k) + 1 by omega, positional, positional, ih, Nat.div_div_eq_div_mul,
      ← pow_add, Nat.add_comm k w, List.cons_append]

lemma positional_mod (b : ℕ) (f : ℕ → UInt8) (w v : ℕ) :
    positional b f w (v % b ^ w) = positional b f w v := by
  suffices h : ∀ m, w ≤ m → positional b f w (v % b ^ m) = positional b f w v from h w le_rfl
  induction w with
  | zero => intro m _; rfl
  | succ w ih =>
    intro m hm
    obtain ⟨d, rfl⟩ : ∃ d, m = w + (d + 1) := ⟨m - w - 1, by omega⟩
    have hdiv : v % b ^ (w + (d + 1)) / b ^ w = v / b ^ w % b ^ (d + 1) := by
      rw [pow_add, Nat.mod_mul_right_div_self]
    have hmod : v / b ^ w % b ^ (d + 1) % b = v / b ^ w % b :=
      Nat.mod_mod_of_dvd _ (dvd_pow_self b (by omega))
    rw [positional, positional, ih _ (by omega), hdiv, hmod]

/-- **Numerals of one width sort as the numbers do.** -/
theorem positional_lt_iff {b : ℕ} {f : ℕ → UInt8} (hf : StrictMonoOn f (Set.Iio b)) {w v u : ℕ}
    (hv : v < b ^ w) (hu : u < b ^ w) : positional b f w v < positional b f w u ↔ v < u := by
  induction w generalizing v u with
  | zero =>
    have h0 : v = 0 ∧ u = 0 := by simpa [Nat.lt_one_iff] using And.intro hv hu
    simp [positional, h0.1, h0.2]
  | succ w ih =>
    have hb : 0 < b := by
      rcases Nat.eq_zero_or_pos b with rfl | hb
      · simp at hv
      · exact hb
    have hpos : 0 < b ^ w := by positivity
    have hdv : v / b ^ w < b := Nat.div_lt_of_lt_mul (by rwa [pow_succ] at hv)
    have hdu : u / b ^ w < b := Nat.div_lt_of_lt_mul (by rwa [pow_succ] at hu)
    have ih' := ih (Nat.mod_lt v hpos) (Nat.mod_lt u hpos)
    rw [positional_mod, positional_mod] at ih'
    rw [positional, positional, List.cons_lt_cons_iff, ih', Nat.mod_eq_of_lt hdv,
      Nat.mod_eq_of_lt hdu, hf.lt_iff_lt hdv hdu, hf.injOn.eq_iff hdv hdu]
    have ev := Nat.div_add_mod v (b ^ w)
    have eu := Nat.div_add_mod u (b ^ w)
    have mv := Nat.mod_lt v hpos
    have mu := Nat.mod_lt u hpos
    constructor
    · rintro (h | ⟨h, h'⟩)
      · calc v < b ^ w * (v / b ^ w + 1) := by rw [mul_add, mul_one]; omega
          _ ≤ b ^ w * (u / b ^ w) := Nat.mul_le_mul_left _ h
          _ ≤ u := Nat.mul_div_le u _
      · rw [← ev, ← eu, h]; omega
    · intro h
      rcases lt_trichotomy (v / b ^ w) (u / b ^ w) with h1 | h1 | h1
      · exact Or.inl h1
      · refine Or.inr ⟨h1, ?_⟩
        rw [← ev, ← eu, h1] at h
        omega
      · exact absurd (Nat.div_le_div_right h.le) (not_le.mpr h1)

lemma positional_injOn {b : ℕ} {f : ℕ → UInt8} (hf : StrictMonoOn f (Set.Iio b)) {w v u : ℕ}
    (hv : v < b ^ w) (hu : u < b ^ w) (h : positional b f w v = positional b f w u) : v = u := by
  rcases lt_trichotomy v u with h1 | h1 | h1
  · exact absurd ((positional_lt_iff hf hv hu).mpr h1) (h ▸ lt_irrefl _)
  · exact h1
  · exact absurd ((positional_lt_iff hf hu hv).mpr h1) (h ▸ lt_irrefl _)

/-! ### Big-endian numbers -/

/-- The `n` lowest base-256 digits of a number, the highest first. -/
def bigEndian : ℕ → ℕ → Bytes
  | 0, _ => []
  | n + 1, v => UInt8.ofNat (v / 256 ^ n) :: bigEndian n v

lemma bigEndian_eq (n v : ℕ) : bigEndian n v = positional 256 UInt8.ofNat n v := by
  induction n with
  | zero => rfl
  | succ n ih =>
    have hmod : UInt8.ofNat (v / 256 ^ n % 256) = UInt8.ofNat (v / 256 ^ n) :=
      UInt8.ofNat_mod_size
    rw [bigEndian, positional, ih, hmod]

@[simp] lemma length_bigEndian (n v : ℕ) : (bigEndian n v).length = n := by
  rw [bigEndian_eq, length_positional]

lemma strictMonoOn_ofNat : StrictMonoOn UInt8.ofNat (Set.Iio 256) := by
  intro a ha b hb hab
  rw [UInt8.lt_iff_toNat_lt, UInt8.toNat_ofNat_of_lt' ha, UInt8.toNat_ofNat_of_lt' hb]
  exact hab

/-- **Big-endian digits sort as the numbers do.** -/
theorem bigEndian_lt_iff {n v w : ℕ} (hv : v < 256 ^ n) (hw : w < 256 ^ n) :
    bigEndian n v < bigEndian n w ↔ v < w := by
  rw [bigEndian_eq, bigEndian_eq]
  exact positional_lt_iff strictMonoOn_ofNat hv hw

lemma bigEndian_injOn {n v w : ℕ} (hv : v < 256 ^ n) (hw : w < 256 ^ n)
    (h : bigEndian n v = bigEndian n w) : v = w := by
  rw [bigEndian_eq, bigEndian_eq] at h
  exact positional_injOn strictMonoOn_ofNat hv hw h

end Bytes
