import Ancestor.SystemRange
import Ancestor.Lib.Steps

/-!
The three indexes of the placement driver's range cache (`util/cache/range_cache.go`), along the
calls that are made of `Add`: a new range, a known one with other replicas, and the two halves of
a split (`requestSplit` of `pd/check.go`).

`Add` removes what the id had in the indexes only when the start key is cached already. A split
gives the old id a new start key, so that what `unstable` holds for it may stay behind.
-/

namespace Ancestor

namespace RangeDescriptorCache

variable (r : RangeDescriptorCache) (rd : RangeDescriptor)

lemma addOne_cache : (r.addOne rd).cache = r.cache.put rd.startKey rd :=
  OrdMap.ext_get fun k => by
    rw [addOne_get, OrdMap.get_put]
    congr

lemma addOne_ranges (id : RangeID) :
    (r.addOne rd).ranges id = if id = rd.rangeID then some rd else r.ranges id := by
  unfold addOne
  by_cases hin : (r.cache.get rd.startKey).isSome <;>
    by_cases hsmall : (rd.replicas.length : Int) < r.minReplica <;>
    by_cases hid : id = rd.rangeID <;> simp [hin, hsmall, hid]

lemma addOne_unstable (id : RangeID) :
    (r.addOne rd).unstable id =
      if id = rd.rangeID then
        if (rd.replicas.length : Int) < r.minReplica then some rd
        else if (r.cache.get rd.startKey).isSome then none else r.unstable id
      else r.unstable id := by
  unfold addOne
  by_cases hin : (r.cache.get rd.startKey).isSome <;>
    by_cases hsmall : (rd.replicas.length : Int) < r.minReplica <;>
    by_cases hid : id = rd.rangeID <;> simp [hin, hsmall, hid]

@[simp] lemma addOne_minReplica : (r.addOne rd).minReplica = r.minReplica := by
  unfold addOne
  by_cases hin : (r.cache.get rd.startKey).isSome <;>
    by_cases hsmall : (rd.replicas.length : Int) < r.minReplica <;> simp [hin, hsmall]

end RangeDescriptorCache

namespace RangeIndex

open RangeDescriptorCache

/-- The key is in the span of the range, as `Lookup` tests it. -/
def Spans (d : RangeDescriptor) (k : Key) : Prop := d.startKey ≤ k ∧ k < d.endKey

/-- The spans have a key in common. -/
def Meets (d d' : RangeDescriptor) : Prop :=
  d.startKey < d.endKey ∧ d'.startKey < d'.endKey ∧ d.startKey < d'.endKey ∧ d'.startKey < d.endKey

instance (d d' : RangeDescriptor) : Decidable (Meets d d') := inferInstanceAs (Decidable (_ ∧ _))

lemma meets_iff {d d' : RangeDescriptor} : Meets d d' ↔ ∃ k, Spans d k ∧ Spans d' k := by
  constructor
  · rintro ⟨h, h', hlt, hlt'⟩
    rcases le_total d.startKey d'.startKey with hle | hle
    · exact ⟨d'.startKey, ⟨hle, hlt'⟩, le_rfl, h'⟩
    · exact ⟨d.startKey, ⟨le_rfl, h⟩, hle, hlt⟩
  · rintro ⟨k, ⟨h₁, h₂⟩, h₃, h₄⟩
    exact ⟨h₁.trans_lt h₂, h₃.trans_lt h₄, h₁.trans_lt h₄, h₃.trans_lt h₂⟩

/-- Descriptors under disjoint spans stay so when one of them is set to a descriptor whose span is
apart from those of the others. -/
lemma disjoint_set {get get' : Key → Option RangeDescriptor} (s₀ : Key) (rd : RangeDescriptor)
    (h : ∀ s d s' d', get s = some d → get s' = some d' → s ≠ s' → ∀ k, Spans d k → ¬Spans d' k)
    (hget : ∀ s, get' s = if s = s₀ then some rd else get s)
    (hrd : ∀ s d, s ≠ s₀ → get s = some d → ∀ k, Spans d k → ¬Spans rd k) :
    ∀ s d s' d', get' s = some d → get' s' = some d' → s ≠ s' →
      ∀ k, Spans d k → ¬Spans d' k := by
  intro s d s' d' hd hd' hne k hk hk'
  rw [hget] at hd hd'
  split_ifs at hd hd' with hs hs' hs'
  · exact hne (hs.trans hs'.symm)
  · cases hd
    exact hrd s' d' hs' hd' k hk' hk
  · cases hd'
    exact hrd s d hs hd k hk hk'
  · exact h s d s' d' hd hd' hne k hk hk'

/-- The calls of `Add`; a split names the old id, the split key, the fresh id and the replicas
of both halves. -/
inductive Action
  | new (rd : RangeDescriptor)
  | update (rd : RangeDescriptor)
  | split (id : RangeID) (m : Key) (newID : RangeID) (replicas : List ReplicaDescriptor)
  deriving DecidableEq, Repr

/-- The cache, and the keys that the ranges added so far are to cover. -/
structure State where
  index : RangeDescriptorCache
  covered : Key → Bool := fun _ => false

def start (minReplica : Int) : State := { index := { minReplica } }

/-- The two descriptors of a split, in the order `requestSplit` gives them. -/
def halves (d : RangeDescriptor) (m : Key) (newID : RangeID) (replicas : List ReplicaDescriptor) :
    List RangeDescriptor :=
  [⟨d.rangeID, m, d.endKey, replicas⟩, ⟨newID, d.startKey, m, replicas⟩]

def State.step (σ : State) : Action → Option State
  | .new rd =>
    if σ.index.ranges rd.rangeID = none ∧ ∀ e ∈ σ.index.cache.entries, ¬Meets e.2 rd then
      some ⟨σ.index.add [rd], fun k => σ.covered k || decide (rd.startKey ≤ k ∧ k < rd.endKey)⟩
    else none
  | .update rd =>
    match σ.index.cache.get rd.startKey with
    | some d =>
      if d.rangeID = rd.rangeID ∧ d.endKey = rd.endKey then
        some { σ with index := σ.index.add [rd] }
      else none
    | none => none
  | .split id m newID replicas =>
    match σ.index.ranges id with
    | some d =>
      if d.startKey < m ∧ m < d.endKey ∧ σ.index.ranges newID = none then
        some { σ with index := σ.index.add (halves d m newID replicas) }
      else none
    | none => none

/-- The indexes belong together: the cached spans are disjoint and cover the keys they are to
cover, `ranges` holds the cached descriptors, and `unstable` those with too few replicas. -/
structure Consistent (σ : State) : Prop where
  disjoint : ∀ s d s' d', σ.index.cache.get s = some d → σ.index.cache.get s' = some d' → s ≠ s' →
    ∀ k, Spans d k → ¬Spans d' k
  covers : ∀ k, σ.covered k = true ↔ ∃ s d, σ.index.cache.get s = some d ∧ Spans d k
  ranges : ∀ id d, σ.index.ranges id = some d ↔
    σ.index.cache.get d.startKey = some d ∧ d.rangeID = id
  unstable : ∀ id d, σ.index.unstable id = some d ↔
    σ.index.ranges id = some d ∧ (d.replicas.length : Int) < σ.index.minReplica

/-- A new range starts where no cached one does, and so does the second half of a split; and a
split does not leave an unstable range with enough replicas. -/
def Clean (σ : State) : Action → Prop
  | .new rd => σ.index.cache.get rd.startKey = none
  | .update _ => True
  | .split id m _ replicas => σ.index.cache.get m = none ∧
      (σ.index.unstable id = none ∨ (replicas.length : Int) < σ.index.minReplica)

instance (σ : State) (a : Action) : Decidable (Clean σ a) := by
  cases a <;> unfold Clean <;> infer_instance

/-! ### What every call keeps -/

/-- Descriptors are cached under their own start keys. -/
def Keyed (σ : State) : Prop := ∀ k d, σ.index.cache.get k = some d → d.startKey = k

lemma keyed_addOne {r : RangeDescriptorCache} {rd : RangeDescriptor}
    (h : ∀ k d, r.cache.get k = some d → d.startKey = k) :
    ∀ k d, (r.addOne rd).cache.get k = some d → d.startKey = k := by
  intro k d hd
  rw [addOne_get] at hd
  split_ifs at hd with hk
  · cases hd
    exact hk.symm
  · exact h k d hd

section Step

variable {σ σ' : State} {a : Action}

/-- What a call that goes through does. -/
inductive Effect (σ : State) : Action → State → Prop
  | new (rd : RangeDescriptor) (hfresh : σ.index.ranges rd.rangeID = none)
      (hmeets : ∀ s d, σ.index.cache.get s = some d → ¬Meets d rd) :
      Effect σ (.new rd) ⟨σ.index.addOne rd,
        fun k => σ.covered k || decide (rd.startKey ≤ k ∧ k < rd.endKey)⟩
  | update (d rd : RangeDescriptor) (hd : σ.index.cache.get rd.startKey = some d)
      (hid : d.rangeID = rd.rangeID) (hend : d.endKey = rd.endKey) :
      Effect σ (.update rd) { σ with index := σ.index.addOne rd }
  | split (d : RangeDescriptor) (id : RangeID) (m : Key) (newID : RangeID)
      (replicas : List ReplicaDescriptor) (hd : σ.index.ranges id = some d)
      (hlo : d.startKey < m) (hhi : m < d.endKey) (hfresh : σ.index.ranges newID = none) :
      Effect σ (.split id m newID replicas)
        { σ with index := σ.index.add (halves d m newID replicas) }

theorem step_effect (h : σ.step a = some σ') : Effect σ a σ' := by
  cases a with
  | new rd =>
    simp only [State.step] at h
    split_ifs at h with hguard
    cases h
    refine .new rd hguard.1 fun s d hd => ?_
    exact hguard.2 (s, d) (σ.index.cache.mem_entries_iff.mpr hd)
  | update rd =>
    simp only [State.step] at h
    split at h
    · rename_i d hd
      split_ifs at h with hguard
      cases h
      exact .update d rd hd hguard.1 hguard.2
    · cases h
  | split id m newID replicas =>
    simp only [State.step] at h
    split at h
    · rename_i d hd
      split_ifs at h with hguard
      cases h
      exact .split d id m newID replicas hd hguard.1 hguard.2.1 hguard.2.2
    · cases h

lemma keyed_step (hk : Keyed σ) (h : σ.step a = some σ') : Keyed σ' := by
  cases step_effect h with
  | new rd hfresh hmeets => exact keyed_addOne hk
  | update d rd hd hid hend => exact keyed_addOne hk
  | split d id m newID replicas hd hlo hhi hfresh => exact keyed_addOne (keyed_addOne hk)

/-! ### A new range -/

section New

variable {rd : RangeDescriptor} {covered : Key → Bool}

lemma consistent_new (h : Consistent σ) (hfresh : σ.index.ranges rd.rangeID = none)
    (hmeets : ∀ s d, σ.index.cache.get s = some d → ¬Meets d rd)
    (hcold : σ.index.cache.get rd.startKey = none) :
    Consistent ⟨σ.index.addOne rd,
      fun k => σ.covered k || decide (rd.startKey ≤ k ∧ k < rd.endKey)⟩ := by
  have hget := addOne_get σ.index rd
  have hranges := addOne_ranges σ.index rd
  have hunstable := addOne_unstable σ.index rd
  have hapart : ∀ s d, σ.index.cache.get s = some d → ∀ k, Spans d k → ¬Spans rd k :=
    fun s d hd k hk hk' => hmeets s d hd (meets_iff.mpr ⟨k, hk, hk'⟩)
  obtain ⟨hdisj, hcov, hr, hu⟩ := h
  refine ⟨disjoint_set _ _ hdisj hget fun s d _ => hapart s d, fun k => ?_, ?_, ?_⟩
  · simp only [Bool.or_eq_true, decide_eq_true_iff, hcov, hget]
    constructor
    · rintro (⟨s, d, hd, hk⟩ | hk)
      · have hs : s ≠ rd.startKey := fun he => by
          rw [he, hcold] at hd
          cases hd
        exact ⟨s, d, by rw [if_neg hs, hd], hk⟩
      · exact ⟨rd.startKey, rd, by simp, hk⟩
    · rintro ⟨s, d, hd, hk⟩
      split_ifs at hd
      · cases hd
        exact .inr hk
      · exact .inl ⟨s, d, hd, hk⟩
  · simp only [hget, hranges]
    grind
  · simp only [hranges, hunstable, addOne_minReplica]
    grind

/-- A cached start key means that another range loses its entry. -/
lemma cold_of_consistent (hk : Keyed σ) (h : Consistent σ)
    (hfresh : σ.index.ranges rd.rangeID = none)
    (h' : Consistent ⟨σ.index.addOne rd, covered⟩) : σ.index.cache.get rd.startKey = none := by
  cases hd : σ.index.cache.get rd.startKey with
  | none => rfl
  | some d =>
    have hstart := hk _ _ hd
    have hranges : σ.index.ranges d.rangeID = some d := (h.ranges _ d).mpr ⟨hstart ▸ hd, rfl⟩
    have hne : d.rangeID ≠ rd.rangeID := fun he => by
      rw [he, hfresh] at hranges
      cases hranges
    have hafter : (σ.index.addOne rd).ranges d.rangeID = some d := by
      rw [addOne_ranges, if_neg hne, hranges]
    have hcached := ((h'.ranges _ d).mp hafter).1
    simp only [addOne_get, hstart, if_true, Option.some.injEq] at hcached
    exact absurd (hcached ▸ rfl) hne

end New

/-! ### A known range -/

lemma Consistent.eq_of_id (h : Consistent σ) {d e : RangeDescriptor}
    (hd : σ.index.cache.get d.startKey = some d) (he : σ.index.cache.get e.startKey = some e)
    (hid : e.rangeID = d.rangeID) : e = d := by
  have hrd := (h.ranges d.rangeID d).mpr ⟨hd, rfl⟩
  have hre := (h.ranges d.rangeID e).mpr ⟨he, hid⟩
  rw [hrd] at hre
  exact (Option.some.inj hre).symm

lemma consistent_update {d rd : RangeDescriptor} (hk : Keyed σ) (h : Consistent σ)
    (hd : σ.index.cache.get rd.startKey = some d) (hid : d.rangeID = rd.rangeID)
    (hend : d.endKey = rd.endKey) : Consistent { σ with index := σ.index.addOne rd } := by
  have hget := addOne_get σ.index rd
  have hranges := addOne_ranges σ.index rd
  have hunstable := addOne_unstable σ.index rd
  have hstart := hk _ _ hd
  have hspans : ∀ k, Spans rd k ↔ Spans d k := fun k => by simp [Spans, hstart, hend]
  have honly : ∀ e, σ.index.cache.get e.startKey = some e → e.rangeID = rd.rangeID → e = d :=
    fun e he hide => h.eq_of_id (hstart.symm ▸ hd) he (hide.trans hid.symm)
  have hapart : ∀ s e, s ≠ rd.startKey → σ.index.cache.get s = some e →
      ∀ k, Spans e k → ¬Spans rd k :=
    fun s e hs he k hke hkr => h.disjoint s e _ d he hd hs k hke ((hspans k).mp hkr)
  obtain ⟨hdisj, hcov, hr, hu⟩ := h
  refine ⟨disjoint_set _ _ hdisj hget hapart, fun k => ?_, ?_, ?_⟩
  · simp only [hcov, hget]
    constructor
    · rintro ⟨s, e, he, hke⟩
      by_cases hs : s = rd.startKey
      · subst hs
        rw [hd, Option.some.injEq] at he
        subst he
        exact ⟨_, rd, if_pos rfl, (hspans k).mpr hke⟩
      · exact ⟨s, e, by rw [if_neg hs, he], hke⟩
    · rintro ⟨s, e, he, hke⟩
      split_ifs at he with hs
      · cases he
        exact ⟨rd.startKey, d, hd, (hspans k).mp hke⟩
      · exact ⟨s, e, he, hke⟩
  · simp only [hget, hranges]
    grind
  · simp only [hranges, hunstable, hd, addOne_minReplica]
    grind

/-! ### A split -/

section Split

variable (σ : State) (d : RangeDescriptor) (m : Key) (newID : RangeID)
  (replicas : List ReplicaDescriptor)

lemma split_get (k : Key) : (σ.index.add (halves d m newID replicas)).cache.get k =
    if k = d.startKey then some ⟨newID, d.startKey, m, replicas⟩
    else if k = m then some ⟨d.rangeID, m, d.endKey, replicas⟩ else σ.index.cache.get k := by
  simp only [RangeDescriptorCache.add, halves, List.foldl_cons, List.foldl_nil, addOne_get]

lemma split_ranges (i : RangeID) : (σ.index.add (halves d m newID replicas)).ranges i =
    if i = newID then some ⟨newID, d.startKey, m, replicas⟩
    else if i = d.rangeID then some ⟨d.rangeID, m, d.endKey, replicas⟩
    else σ.index.ranges i := by
  simp only [RangeDescriptorCache.add, halves, List.foldl_cons, List.foldl_nil, addOne_ranges]

lemma split_minReplica :
    (σ.index.add (halves d m newID replicas)).minReplica = σ.index.minReplica := by
  simp [RangeDescriptorCache.add, halves]

variable {σ d m newID replicas}

/-- The first half leaves `unstable` alone when it has enough replicas and a new start key. -/
lemma split_unstable (hd : σ.index.cache.get d.startKey = some d) (hm : d.startKey < m)
    (hcold : σ.index.cache.get m = none) (i : RangeID) :
    (σ.index.add (halves d m newID replicas)).unstable i =
      if i = newID then
        if (replicas.length : Int) < σ.index.minReplica then
          some ⟨newID, d.startKey, m, replicas⟩ else none
      else if i = d.rangeID ∧ (replicas.length : Int) < σ.index.minReplica then
        some ⟨d.rangeID, m, d.endKey, replicas⟩
      else σ.index.unstable i := by
  simp only [RangeDescriptorCache.add, halves, List.foldl_cons, List.foldl_nil, addOne_unstable,
    addOne_get, addOne_minReplica, hcold, if_neg hm.ne, hd]
  grind

/-- The two halves are disjoint and cover what the range did. -/
lemma spans_halves (newID : RangeID) (replicas : List ReplicaDescriptor) (hlo : d.startKey < m)
    (hhi : m < d.endKey) (k : Key) :
    (Spans d k ↔ Spans ⟨newID, d.startKey, m, replicas⟩ k ∨
      Spans ⟨d.rangeID, m, d.endKey, replicas⟩ k) ∧
    (Spans ⟨newID, d.startKey, m, replicas⟩ k →
      ¬Spans ⟨d.rangeID, m, d.endKey, replicas⟩ k) := by
  refine ⟨⟨?_, ?_⟩, fun h h' => absurd h.2 (not_lt.mpr h'.1)⟩
  · rintro ⟨hs, he⟩
    rcases lt_or_ge k m with hk | hk
    · exact .inl ⟨hs, hk⟩
    · exact .inr ⟨hk, he⟩
  · rintro (⟨hs, he⟩ | ⟨hs, he⟩)
    · exact ⟨hs, lt_trans he hhi⟩
    · exact ⟨hlo.le.trans hs, he⟩

lemma consistent_split (h : Consistent σ) (hd : σ.index.ranges d.rangeID = some d)
    (hlo : d.startKey < m) (hhi : m < d.endKey) (hfresh : σ.index.ranges newID = none)
    (hcold : σ.index.cache.get m = none) (hstable : σ.index.unstable d.rangeID = none ∨
      (replicas.length : Int) < σ.index.minReplica) :
    Consistent { σ with index := σ.index.add (halves d m newID replicas) } := by
  have hcached := ((h.ranges _ d).mp hd).1
  have hget := split_get σ d m newID replicas
  have hranges := split_ranges σ d m newID replicas
  have hunstable : ∀ i, (σ.index.add (halves d m newID replicas)).unstable i = _ :=
    split_unstable hcached hlo hcold
  have hspans := spans_halves newID replicas hlo hhi
  have hother : ∀ s e, σ.index.cache.get s = some e → s ≠ d.startKey →
      ∀ k, Spans d k → ¬Spans e k :=
    fun s e he hs k => h.disjoint _ d s e hcached he (Ne.symm hs) k
  have honly : ∀ e, σ.index.cache.get e.startKey = some e → e.rangeID = d.rangeID → e = d :=
    fun e he hid => h.eq_of_id hcached he hid
  obtain ⟨hdisj, hcov, hr, hu⟩ := h
  refine ⟨?_, fun k => ?_, ?_, ?_⟩
  · -- the new half takes the place of the range, then the old id goes to the split key
    have hnew := disjoint_set d.startKey ⟨newID, d.startKey, m, replicas⟩ hdisj
      (fun _ => rfl)
      fun s e hs he k hke hkn => hother s e he hs k ((hspans k).1.mpr (.inl hkn)) hke
    refine disjoint_set m ⟨d.rangeID, m, d.endKey, replicas⟩ hnew (fun s => ?_)
      fun s e hs he k hke hko => ?_
    · rw [hget]
      split_ifs with hs hs' hs'
      · exact absurd (hs.symm.trans hs') hlo.ne
      · rfl
      · rfl
      · rfl
    · split_ifs at he with hs'
      · cases he
        exact (hspans k).2 hke hko
      · exact hother s e he hs' k ((hspans k).1.mpr (.inr hko)) hke
  · simp only [hcov, hget]
    constructor
    · rintro ⟨s, e, he, hke⟩
      by_cases hs : s = d.startKey
      · subst hs
        rw [hcached, Option.some.injEq] at he
        subst he
        obtain hk | hk := ((hspans k).1).mp hke
        · exact ⟨d.startKey, _, if_pos rfl, hk⟩
        · exact ⟨m, _, by rw [if_neg hlo.ne', if_pos rfl], hk⟩
      · have hsm : s ≠ m := fun he' => by
          rw [he', hcold] at he
          cases he
        exact ⟨s, e, by rw [if_neg hs, if_neg hsm, he], hke⟩
    · rintro ⟨s, e, he, hke⟩
      split_ifs at he
      · cases he
        exact ⟨_, d, hcached, ((hspans k).1).mpr (.inl hke)⟩
      · cases he
        exact ⟨_, d, hcached, ((hspans k).1).mpr (.inr hke)⟩
      · exact ⟨s, e, he, hke⟩
  · simp only [hget, hranges]
    grind
  · simp only [hranges, hunstable, split_minReplica]
    grind

/-- A descriptor that is cached in the middle of the range loses its entry. -/
lemma split_cold (hk : Keyed σ) (h : Consistent σ) (hd : σ.index.ranges d.rangeID = some d)
    (hlo : d.startKey < m) (hfresh : σ.index.ranges newID = none)
    (h' : Consistent { σ with index := σ.index.add (halves d m newID replicas) }) :
    σ.index.cache.get m = none := by
  cases hm : σ.index.cache.get m with
  | none => rfl
  | some e =>
    have hstart := hk m e hm
    have hranges : σ.index.ranges e.rangeID = some e := (h.ranges _ e).mpr ⟨hstart ▸ hm, rfl⟩
    have hold : e.rangeID ≠ d.rangeID := fun he => by
      rw [he, hd, Option.some.injEq] at hranges
      rw [hranges, hstart] at hlo
      exact lt_irrefl m hlo
    have hnew : e.rangeID ≠ newID := fun he => by
      rw [he, hfresh] at hranges
      cases hranges
    have hafter : (σ.index.add (halves d m newID replicas)).ranges e.rangeID = some e := by
      rw [split_ranges, if_neg hnew, if_neg hold, hranges]
    have hcached := ((h'.ranges _ e).mp hafter).1
    simp only [split_get, hstart, if_neg hlo.ne', if_true, Option.some.injEq] at hcached
    exact absurd (hcached ▸ rfl) hold

/-- A descriptor that stays behind in `unstable` is not the one in `ranges`. -/
lemma split_stable (h : Consistent σ) (hd : σ.index.ranges d.rangeID = some d)
    (hlo : d.startKey < m) (hfresh : σ.index.ranges newID = none)
    (hcold : σ.index.cache.get m = none)
    (h' : Consistent { σ with index := σ.index.add (halves d m newID replicas) }) :
    σ.index.unstable d.rangeID = none ∨ (replicas.length : Int) < σ.index.minReplica := by
  have hcached := ((h.ranges _ d).mp hd).1
  have hne : d.rangeID ≠ newID := fun he => by
    rw [← he, hd] at hfresh
    cases hfresh
  cases hu : σ.index.unstable d.rangeID with
  | none => exact .inl rfl
  | some e =>
    refine .inr ?_
    by_contra hmany
    have hafter : (σ.index.add (halves d m newID replicas)).unstable d.rangeID = some e := by
      rw [split_unstable hcached hlo hcold, if_neg hne, if_neg fun hand => hmany hand.2, hu]
    have hranges := ((h'.unstable _ e).mp hafter).1
    have hpost : (⟨d.rangeID, m, d.endKey, replicas⟩ : RangeDescriptor) = e := by
      simpa [split_ranges, hne] using hranges
    have hsame : e = d := by
      have hrange := ((h.unstable _ e).mp hu).1
      rw [hd] at hrange
      exact (Option.some.inj hrange).symm
    have hstart := congrArg RangeDescriptor.startKey (hpost.trans hsame)
    exact hlo.ne' hstart

end Split

/-- **A call keeps the indexes together exactly when it is clean.** -/
lemma consistent_step (hk : Keyed σ) (h : Consistent σ) (hs : σ.step a = some σ') :
    Consistent σ' ↔ Clean σ a := by
  cases step_effect hs with
  | new rd hfresh hmeets =>
    exact ⟨fun h' => cold_of_consistent hk h hfresh h', consistent_new h hfresh hmeets⟩
  | update d rd hd hid hend => exact iff_of_true (consistent_update hk h hd hid hend) trivial
  | split d id m newID replicas hd hlo hhi hfresh =>
    have hid : d.rangeID = id := ((h.ranges id d).mp hd).2
    subst hid
    constructor
    · intro h'
      have hcold := split_cold hk h hd hlo hfresh h'
      exact ⟨hcold, split_stable h hd hlo hfresh hcold h'⟩
    · rintro ⟨hcold, hstable⟩
      exact consistent_split h hd hlo hhi hfresh hcold hstable

end Step

lemma consistent_start (minReplica : Int) : Consistent (start minReplica) := by
  constructor <;> simp [start]

/-- **When the indexes stay together.** Along the calls of `Add`, the spans are disjoint and
cover their keys, and the three indexes agree, exactly when no call starts a range where another
is cached and no split leaves an unstable range with enough replicas. -/
theorem consistent_iff {minReplica : Int} {l : List Action} {σ : State}
    (hrun : Steps.run State.step (start minReplica) l = some σ) :
    Steps.Always State.step Consistent (start minReplica) l ↔
      Steps.Along State.step Clean (start minReplica) l :=
  Steps.always_iff_along (I := Keyed) (fun _ _ _ hk hs => keyed_step hk hs)
    (fun _ _ _ hk h hs => consistent_step hk h hs) (fun k d hd => by simp [start] at hd)
    (consistent_start minReplica) hrun

/-- A range without replicas is split when its node has three. -/
def stale : List Action :=
  [.new ⟨2, [2], [3], []⟩, .split 2 [2, 5] 7 [⟨1, 1⟩, ⟨2, 2⟩, ⟨3, 3⟩]]

/-- **A split leaves the old descriptor behind** in `unstable`, with the span of both halves. -/
theorem split_leaves_stale :
    ∃ σ, Steps.run State.step (start 3) stale = some σ ∧
      σ.index.unstable 2 = some ⟨2, [2], [3], []⟩ ∧
      σ.index.ranges 2 = some ⟨2, [2, 5], [3], [⟨1, 1⟩, ⟨2, 2⟩, ⟨3, 3⟩]⟩ ∧ ¬Consistent σ := by
  refine ⟨_, rfl, rfl, rfl, fun h => ?_⟩
  exact absurd ((h.unstable 2 ⟨2, [2], [3], []⟩).mp rfl).1 (by decide)

/-- A range gets its replicas, is split, and one half loses a replica again. -/
def settled : List Action :=
  [.new ⟨2, [2], [3], []⟩, .update ⟨2, [2], [3], [⟨1, 1⟩, ⟨2, 2⟩, ⟨3, 3⟩]⟩,
    .split 2 [2, 5] 7 [⟨1, 1⟩, ⟨2, 2⟩, ⟨3, 3⟩], .update ⟨7, [2], [2, 5], [⟨1, 1⟩, ⟨2, 2⟩]⟩]

theorem consistent_settled : Steps.Always State.step Consistent (start 3) settled := by
  obtain ⟨σ, hσ⟩ : ∃ σ, Steps.run State.step (start 3) settled = some σ := ⟨_, rfl⟩
  exact (consistent_iff hσ).mpr (by decide +kernel)

end RangeIndex

end Ancestor
