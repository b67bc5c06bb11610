import Ancestor.IteratorCalls
import Ancestor.RangeIndex

/-!
The descriptors in the client's cache while ranges are split (`client/range_cache.go`,
`getRangeDescFromCache` of `client/base.go`).

A lookup that misses asks the placement driver and adds its answer. The cache is one for all
goroutines, and no lock is held between the miss, the answer and the add: any number of lookups are
on their way at a time, and ranges may be split and the cache cleared meanwhile.

What is cached can be older than what the placement driver has, but a split only makes ranges
smaller: every range lies within a descriptor of any earlier time or apart from it. So the range of
a key that no cached descriptor spans meets none of them. What it can meet is the answer that
another lookup got before a split and adds after it.
-/

namespace Ancestor.CacheEntries

open Steps Hoare
open RangeIndex (Spans halves)

/-! ### The client and the placement driver -/

/-- A lookup that has missed, and has or has not its answer. -/
inductive Pending
  | asked (key : Key)
  | answered (rd : RangeDescriptor)

def Pending.answer : Pending → Option RangeDescriptor
  | .asked _ => none
  | .answered rd => some rd

structure State where
  pd : RangeDescriptorCache
  rangeCache : Client.RangeDescriptorCache := {}
  pending : OrdMap ℕ Pending := .empty

/-- A split names the start of the range, the split key, the new id and the replicas of both
halves; a clear names the descriptors that the walk over the tree passes by. Lookups are
numbered. -/
inductive Action
  | split (start : Key) (m : Key) (newID : RangeID) (replicas : List ReplicaDescriptor)
  | miss (i : ℕ) (key : Key)
  | answer (i : ℕ)
  | add (i : ℕ)
  | clear (left : RangeDescriptor → Bool)

def State.step (T : Client.IntervalTree) (σ : State) : Action → Option State
  | .split start m newID replicas =>
    match σ.pd.cache.get start with
    | none => none
    | some d =>
      if d.startKey < m ∧ m < d.endKey then
        some { σ with pd := σ.pd.add (halves d m newID replicas) }
      else none
  | .miss i key =>
    match σ.pending.get i, σ.rangeCache.lookup key with
    | none, .error .notFound => some { σ with pending := σ.pending.put i (.asked key) }
    | _, _ => none
  | .answer i =>
    match σ.pending.get i with
    | some (.asked key) =>
      match σ.pd.lookup key with
      -- the error goes to the caller
      | none => some { σ with pending := σ.pending.clear i }
      | some rd => some { σ with pending := σ.pending.put i (.answered rd) }
    | _ => none
  | .add i =>
    match σ.pending.get i with
    | some (.answered rd) =>
      match σ.rangeCache.add T rd with
      | .ok rangeCache => some { σ with rangeCache, pending := σ.pending.clear i }
      -- the panic of `NewKey` leaves the tree as it is
      | .error _ => some { σ with pending := σ.pending.clear i }
    | _ => none
  | .clear left => some { σ with rangeCache := ⟨σ.rangeCache.tree.filter left⟩ }

/-- The steps of a miss, one after another, are what a session does. -/
lemma session_miss (env : Client.Env) (w : Client.Session) {key : Key} {rd : RangeDescriptor}
    (hmiss : w.rangeCache.lookup key = .error .notFound) (hpd : env.pd.lookup key = some rd) :
    run (State.step env.tree) { pd := env.pd, rangeCache := w.rangeCache }
        [.miss 0 key, .answer 0, .add 0] =
      some { pd := env.pd
             rangeCache := (stateAfter (Client.getRangeDescFromCache env key) w).rangeCache } := by
  have hrun : run (State.step env.tree) { pd := env.pd, rangeCache := w.rangeCache }
      [.miss 0 key, .answer 0, .add 0] =
      State.step env.tree { pd := env.pd, rangeCache := w.rangeCache,
                            pending := OrdMap.empty.put 0 (.answered rd) } (.add 0) := by
    simp [run, State.step, hmiss, hpd]
    rfl
  rw [hrun, Client.getRangeDescFromCache, stateAfter, run_bind_get, hmiss, hpd]
  simp only [State.step, OrdMap.get_put, if_true]
  rw [run_bind_get]
  cases hadd : w.rangeCache.add env.tree rd with
  | error e => cases e <;> rfl
  | ok rangeCache =>
    rw [run_bind_ok (show Client.ofCache (.ok rangeCache) w = .ok rangeCache w from rfl)]
    cases hl : rangeCache.lookup key with
    | error e => cases e <;> rfl
    | ok x => rfl

/-! ### Parts -/

/-- The spans have no key in common. -/
def Apart (d d' : RangeDescriptor) : Prop := ∀ k, Spans d k → ¬Spans d' k

/-- The span lies within the other one. -/
def Within (d d' : RangeDescriptor) : Prop := ∀ k, Spans d k → Spans d' k

def SameSpan (d d' : RangeDescriptor) : Prop := d.startKey = d'.startKey ∧ d.endKey = d'.endKey

instance (d d' : RangeDescriptor) : Decidable (SameSpan d d') := inferInstanceAs (Decidable (_ ∧ _))

/-- The spans do not conflict. -/
def Fits (d d' : RangeDescriptor) : Prop := Apart d d' ∨ SameSpan d d'

lemma Fits.symm {d d' : RangeDescriptor} : Fits d d' → Fits d' d
  | .inl h => .inl fun k hk hk' => h k hk' hk
  | .inr h => .inr ⟨h.1.symm, h.2.symm⟩

lemma apart_of_not_meets {d d' : RangeDescriptor} (h : ¬RangeIndex.Meets d d') : Apart d d' :=
  fun _ hk hk' => h ⟨hk.1.trans_lt hk.2, hk'.1.trans_lt hk'.2, hk.1.trans_lt hk'.2,
    hk'.1.trans_lt hk.2⟩

/-- The ranges of the placement driver divide the keys that they span. -/
structure Parts (pd : RangeDescriptorCache) : Prop where
  keyed : ∀ s d, pd.cache.get s = some d → d.startKey = s
  apart : ∀ s d s' d', pd.cache.get s = some d → pd.cache.get s' = some d' → s ≠ s' → Apart d d'

/-- Every range lies within the descriptor or apart from it. -/
def Divides (pd : RangeDescriptorCache) (x : RangeDescriptor) : Prop :=
  ∀ s d, pd.cache.get s = some d → Within d x ∨ Apart d x

section Parts

variable {pd : RangeDescriptorCache} {d x : RangeDescriptor} {key : Key}

lemma lookup_some (h : pd.lookup key = some d) (hp : Parts pd) :
    pd.cache.get d.startKey = some d ∧ Spans d key := by
  unfold RangeDescriptorCache.lookup at h
  cases hf : pd.cache.floor key with
  | none => simp [hf] at h
  | some e =>
    obtain ⟨s, d'⟩ := e
    simp only [hf] at h
    split_ifs at h with hspan
    cases h
    have hget : pd.cache.get s = some d := pd.cache.get_of_floor hf
    exact ⟨(hp.keyed s d hget).symm ▸ hget, hspan⟩

/-- A part divides the keys as the others do. -/
lemma Parts.divides (hp : Parts pd) (hget : pd.cache.get d.startKey = some d) : Divides pd d := by
  intro s d' hd'
  by_cases hs : s = d.startKey
  · subst hs
    rw [hget, Option.some.injEq] at hd'
    subst hd'
    exact .inl fun k hk => hk
  · exact .inr (hp.apart s d' d.startKey d hd' hget hs)

/-- The range of a key is one. -/
lemma Parts.eq_of_spans (hp : Parts pd) (hd : pd.cache.get d.startKey = some d)
    (hx : pd.cache.get x.startKey = some x) (hk : Spans d key) (hk' : Spans x key) : d = x := by
  by_cases hs : d.startKey = x.startKey
  · rw [← hs, hd] at hx
    exact Option.some.inj hx
  · exact absurd hk' (hp.apart _ d _ x hd hx hs key hk)

/-- A range with a key that is outside of the descriptor is apart from it. -/
lemma Divides.apart (h : Divides pd x) (hget : pd.cache.get d.startKey = some d)
    (hk : Spans d key) (hx : ¬Spans x key) : Apart d x :=
  (h _ d hget).resolve_left fun hin => hx (hin key hk)

end Parts

/-! ### Splits -/

section Split

variable {pd : RangeDescriptorCache} {d : RangeDescriptor} {m : Key} {newID : RangeID}
  {replicas : List ReplicaDescriptor}

lemma get_halves (s : Key) : (pd.add (halves d m newID replicas)).cache.get s =
    if s = d.startKey then some ⟨newID, d.startKey, m, replicas⟩
    else if s = m then some ⟨d.rangeID, m, d.endKey, replicas⟩ else pd.cache.get s :=
  RangeIndex.split_get { index := pd } d m newID replicas s

/-- What is in the cache after a split: a half of the range, or another range. -/
lemma halves_cases {s : Key} {x : RangeDescriptor} (hlo : d.startKey < m) (hhi : m < d.endKey)
    (h : (pd.add (halves d m newID replicas)).cache.get s = some x) :
    (x.startKey = s ∧ Within x d ∧ (s = d.startKey ∧ (∀ k, Spans x k → k < m) ∨
      s = m ∧ ∀ k, Spans x k → m ≤ k)) ∨
      (s ≠ d.startKey ∧ s ≠ m ∧ pd.cache.get s = some x) := by
  rw [get_halves] at h
  split_ifs at h with hs hm
  · cases h
    refine .inl ⟨hs.symm, fun k hk => ⟨hk.1, hk.2.trans hhi⟩, .inl ⟨hs, fun k hk => hk.2⟩⟩
  · cases h
    refine .inl ⟨hm.symm, fun k hk => ⟨hlo.le.trans hk.1, hk.2⟩, .inr ⟨hm, fun k hk => hk.1⟩⟩
  · exact .inr ⟨hs, hm, h⟩

variable (hd : pd.cache.get d.startKey = some d) (hlo : d.startKey < m) (hhi : m < d.endKey)

include hd hlo hhi

/-- After a split every range lies within one from before. -/
lemma halves_within {s : Key} {x : RangeDescriptor}
    (h : (pd.add (halves d m newID replicas)).cache.get s = some x) :
    ∃ s' d', pd.cache.get s' = some d' ∧ Within x d' := by
  rcases halves_cases hlo hhi h with ⟨-, hin, -⟩ | ⟨-, -, hget⟩
  · exact ⟨_, d, hd, hin⟩
  · exact ⟨s, x, hget, fun k hk => hk⟩

lemma Divides.split {x : RangeDescriptor} (h : Divides pd x) :
    Divides (pd.add (halves d m newID replicas)) x := by
  intro s y hy
  obtain ⟨s', d', hd', hin⟩ := halves_within hd hlo hhi hy
  rcases h s' d' hd' with hw | ha
  · exact .inl fun k hk => hw k (hin k hk)
  · exact .inr fun k hk => ha k (hin k hk)

lemma Parts.split (hp : Parts pd) : Parts (pd.add (halves d m newID replicas)) where
  keyed := by
    intro s x hx
    rcases halves_cases hlo hhi hx with ⟨hs, -⟩ | ⟨-, -, hget⟩
    · exact hs
    · exact hp.keyed s x hget
  apart := by
    intro s x s' x' hx hx' hne k hk hk'
    rcases halves_cases hlo hhi hx with ⟨-, hin, hhalf⟩ | ⟨hs, -, hget⟩
    · rcases halves_cases hlo hhi hx' with ⟨-, -, hhalf'⟩ | ⟨hs', -, hget'⟩
      · -- the two halves
        rcases hhalf with ⟨rfl, hlt⟩ | ⟨rfl, hle⟩
        · rcases hhalf' with ⟨rfl, -⟩ | ⟨-, hle'⟩
          · exact hne rfl
          · exact not_lt.mpr (hle' k hk') (hlt k hk)
        · rcases hhalf' with ⟨-, hlt'⟩ | ⟨rfl, -⟩
          · exact not_lt.mpr (hle k hk) (hlt' k hk')
          · exact hne rfl
      · exact hp.apart _ d s' x' hd hget' hs'.symm k (hin k hk) hk'
    · rcases halves_cases hlo hhi hx' with ⟨-, hin', -⟩ | ⟨-, -, hget'⟩
      · exact hp.apart s x _ d hget hd hs k hk (hin' k hk')
      · exact hp.apart s x s' x' hget hget' hne k hk hk'

end Split

/-! ### Runs -/

/-- What a lookup on its way asks of a descriptor that joins the cache: with the key that it waits
for, only a range that the placement driver still has; otherwise none that conflicts with its
answer. -/
def Pending.Allows (pd : RangeDescriptorCache) (rd : RangeDescriptor) : Pending → Prop
  | .asked key => Spans rd key → pd.cache.get rd.startKey = some rd
  | .answered rd' => RangeIndex.Meets rd rd' → SameSpan rd rd'

/-- A lookup waits for the key, and a descriptor with it is in the cache by now. -/
def Pending.Overtaken (tree : List RangeDescriptor) (d : RangeDescriptor) : Pending → Prop
  | .asked key => Spans d key ∧ ∃ x ∈ tree, Spans x key
  | .answered _ => False

instance (d : RangeDescriptor) (k : Key) : Decidable (Spans d k) :=
  inferInstanceAs (Decidable (_ ∧ _))

instance (pd : RangeDescriptorCache) (rd : RangeDescriptor) : (p : Pending) →
    Decidable (p.Allows pd rd)
  | .asked key => inferInstanceAs (Decidable (Spans rd key → _))
  | .answered rd' => inferInstanceAs (Decidable (RangeIndex.Meets rd rd' → _))

instance (tree : List RangeDescriptor) (d : RangeDescriptor) : (p : Pending) →
    Decidable (p.Overtaken tree d)
  | .asked key => inferInstanceAs (Decidable (Spans d key ∧ _))
  | .answered _ => inferInstanceAs (Decidable False)

/-- Lookups that are on their way at one time do not disturb each other: an answer is added only
if every other lookup allows it, and the range of a key that a lookup waits for is not split when
another lookup has added it meanwhile. -/
def State.Undisturbed (σ : State) : Action → Prop
  | .add i => ∀ rd ∈ (σ.pending.get i).bind Pending.answer, ∀ e ∈ σ.pending.entries, e.1 ≠ i →
      e.2.Allows σ.pd rd
  | .split start _ _ _ => ∀ d ∈ σ.pd.cache.get start, ∀ e ∈ σ.pending.entries,
      ¬e.2.Overtaken σ.rangeCache.tree d
  | _ => True

instance (σ : State) : (a : Action) → Decidable (σ.Undisturbed a)
  | .add i => inferInstanceAs (Decidable (∀ rd ∈ (σ.pending.get i).bind Pending.answer, _))
  | .split start _ _ _ => inferInstanceAs (Decidable (∀ d ∈ σ.pd.cache.get start, _))
  | .miss _ _ | .answer _ | .clear _ => inferInstanceAs (Decidable True)

/-- A lookup that is on its way will not add what conflicts with a cached descriptor. -/
def Pending.Sound (pd : RangeDescriptorCache) (tree : List RangeDescriptor) : Pending → Prop
  | .asked key => ∀ x ∈ tree, Spans x key → pd.cache.get x.startKey = some x
  | .answered rd => (rd.startKey < rd.endKey ∧ Divides pd rd) ∧ ∀ x ∈ tree, Fits rd x

structure Inv (σ : State) : Prop where
  parts : Parts σ.pd
  bounds : ∀ x ∈ σ.rangeCache.tree, x.startKey ≠ [] ∧ x.startKey < x.endKey
  divides : ∀ x ∈ σ.rangeCache.tree, Divides σ.pd x
  fits : ∀ x ∈ σ.rangeCache.tree, ∀ y ∈ σ.rangeCache.tree, Fits x y
  pending : ∀ i p, σ.pending.get i = some p → p.Sound σ.pd σ.rangeCache.tree

section Lookup

variable {rdc : Client.RangeDescriptorCache}
  (h : ∀ x ∈ rdc.tree, x.startKey ≠ [] ∧ x.startKey < x.endKey)
include h

/-- The empty key is no key to look up, and no descriptor spans it. -/
lemma lookup_nil : (∃ start stop, rdc.lookup [] = .error (.panic start stop)) ∧
    ∀ x ∈ rdc.tree, ¬Spans x [] := by
  refine ⟨⟨[], bytesNext [], rfl⟩, fun x hx hspan => (h x hx).1 ?_⟩
  cases hs : x.startKey with
  | nil => rfl
  | cons a l => exact absurd (hs ▸ hspan.1) (not_le.mpr (List.nil_lt_cons a l))

lemma lookup_spec (key : Key) :
    (∃ rd ∈ rdc.tree, rdc.lookup key = .ok rd ∧ Spans rd key) ∨
      ((∃ e, rdc.lookup key = .error e) ∧ ∀ x ∈ rdc.tree, ¬Spans x key) := by
  by_cases hk : key = []
  · subst hk
    obtain ⟨⟨start, stop, hl⟩, hnone⟩ := lookup_nil h
    exact .inr ⟨⟨_, hl⟩, hnone⟩
  · have hbounds : ∀ x ∈ rdc.tree, x.startKey ≠ [] ∧ x.endKey ≠ [] := fun x hx =>
      ⟨(h x hx).1, fun hnil => List.not_lt_nil _ (hnil ▸ (h x hx).2)⟩
    rcases rdc.lookup_cases hbounds hk with ⟨rd, hmem, hl, hspan⟩ | ⟨hl, hnone⟩
    · exact .inl ⟨rd, hmem, hl, hspan⟩
    · exact .inr ⟨⟨_, hl⟩, fun x hx hspan => not_lt.mpr (hnone x hx hspan.1) hspan.2⟩

lemma not_spans_of_notFound {key : Key} (hl : rdc.lookup key = .error .notFound) :
    ∀ x ∈ rdc.tree, ¬Spans x key := by
  rcases lookup_spec h key with ⟨rd, -, hok, -⟩ | ⟨-, hnone⟩
  · rw [hl] at hok
    cases hok
  · exact hnone

end Lookup

lemma inv_start {pd : RangeDescriptorCache} (hp : Parts pd) : Inv { pd } where
  parts := hp
  bounds := by simp
  divides := by simp
  fits := by simp
  pending := by simp

section Sound

variable {pd : RangeDescriptorCache} {tree tree' : List RangeDescriptor} {p : Pending}

lemma Pending.Sound.split {d : RangeDescriptor} {m : Key} {newID : RangeID}
    {replicas : List ReplicaDescriptor} (hp : Parts pd) (hd : pd.cache.get d.startKey = some d)
    (hlo : d.startKey < m) (hhi : m < d.endKey) (hover : ¬p.Overtaken tree d)
    (h : p.Sound pd tree) : p.Sound (pd.add (halves d m newID replicas)) tree := by
  cases p with
  | asked key =>
    intro x hx hspan
    have hget := h x hx hspan
    have hout : ¬Spans d key := fun hk => hover ⟨hk, x, hx, hspan⟩
    -- the range of the key is another one, and starts neither where this one does nor inside it
    have hstart : x.startKey ≠ d.startKey := fun heq => by
      rw [heq, hd, Option.some.injEq] at hget
      exact hout (hget ▸ hspan)
    have hm : x.startKey ≠ m := fun heq =>
      hstart (hp.eq_of_spans hget hd ⟨heq.le, heq ▸ hspan.1.trans_lt hspan.2⟩ ⟨hlo.le, hhi⟩ ▸ rfl)
    rw [get_halves, if_neg hstart, if_neg hm, hget]
  | answered rd => exact ⟨⟨h.1.1, h.1.2.split hd hlo hhi⟩, h.2⟩

lemma Pending.Sound.subset (hsub : ∀ x ∈ tree', x ∈ tree) (h : p.Sound pd tree) :
    p.Sound pd tree' := by
  cases p with
  | asked key => exact fun x hx => h x (hsub x hx)
  | answered rd => exact ⟨h.1, fun x hx => h.2 x (hsub x hx)⟩

/-- A descriptor that the lookup allows joins the cache. -/
lemma Pending.Sound.insert (T : Client.IntervalTree) {rd : RangeDescriptor}
    (hallows : p.Allows pd rd) (h : p.Sound pd tree) : p.Sound pd (T.insert rd tree) := by
  cases p with
  | asked key =>
    intro x hx hspan
    rcases T.mem_insert.mp hx with rfl | hx
    · exact hallows hspan
    · exact h x hx hspan
  | answered rd' =>
    refine ⟨h.1, fun x hx => ?_⟩
    rcases T.mem_insert.mp hx with rfl | hx
    · by_cases hmeets : RangeIndex.Meets x rd'
      · exact Fits.symm (.inr (hallows hmeets))
      · exact Fits.symm (.inl (apart_of_not_meets hmeets))
    · exact h.2 x hx

/-- The answer for a key: the cached descriptors with the key are the range itself, the others are
apart from it. -/
lemma Pending.Sound.answer {key : Key} {rd : RangeDescriptor} (hp : Parts pd)
    (hdiv : ∀ x ∈ tree, Divides pd x) (h : (Pending.asked key).Sound pd tree)
    (hl : pd.lookup key = some rd) : (Pending.answered rd).Sound pd tree := by
  obtain ⟨hget, hspan⟩ := lookup_some hl hp
  refine ⟨⟨hspan.1.trans_lt hspan.2, hp.divides hget⟩, fun x hx => ?_⟩
  by_cases hk : Spans x key
  · obtain rfl := hp.eq_of_spans hget (h x hx hk) hspan hk
    exact .inr ⟨rfl, rfl⟩
  · exact .inl ((hdiv x hx).apart hget hspan hk)

end Sound

/-- A descriptor from the empty key on makes the client panic. -/
lemma add_nil (T : Client.IntervalTree) (rdc : Client.RangeDescriptorCache) {rd : RangeDescriptor}
    (hs : rd.startKey = []) (hlt : rd.startKey < rd.endKey) :
    rdc.add T rd = .error (.panic rd.startKey rd.endKey) := by
  have hstop : rd.endKey.length ≠ 0 := fun h =>
    List.not_lt_nil _ (List.length_eq_zero_iff.mp h ▸ hlt)
  have hcmp : Client.rangeCompareKey rd.startKey rd.endKey = .gt := by
    rw [Client.rangeCompareKey, if_neg hstop, if_pos (by rw [hs]; rfl)]
  rw [Client.RangeDescriptorCache.add, Client.RangeDescriptorCache.newKey, if_pos (by simp [hcmp])]
  rfl

section Step

variable {T : Client.IntervalTree} {σ σ' : State}

/-- A lookup goes on to `p`. -/
lemma Inv.pending_put (h : Inv σ) (i : ℕ) {p : Pending} (hp : p.Sound σ.pd σ.rangeCache.tree) :
    Inv { σ with pending := σ.pending.put i p } := by
  refine ⟨h.parts, h.bounds, h.divides, h.fits, fun j q hq => ?_⟩
  rw [OrdMap.get_put] at hq
  split_ifs at hq
  · cases hq
    exact hp
  · exact h.pending j q hq

lemma get_pending_clear {i j : ℕ} {p : Pending} (h : (σ.pending.clear i).get j = some p) :
    j ≠ i ∧ σ.pending.get j = some p := by
  rw [OrdMap.get_clear] at h
  split_ifs at h with hj
  exact ⟨hj, h⟩

lemma Inv.pending_clear (h : Inv σ) (i : ℕ) : Inv { σ with pending := σ.pending.clear i } :=
  ⟨h.parts, h.bounds, h.divides, h.fits, fun j p hp => h.pending j p (get_pending_clear hp).2⟩

/-- The answer that is added joins the descriptors in the cache. -/
lemma Inv.insert (h : Inv σ) {i : ℕ} {rd : RangeDescriptor}
    (hp : σ.pending.get i = some (.answered rd)) (hs : rd.startKey ≠ [])
    (hallows : ∀ j p, σ.pending.get j = some p → j ≠ i → p.Allows σ.pd rd) :
    Inv { σ with
      rangeCache := ⟨T.insert rd σ.rangeCache.tree⟩
      pending := σ.pending.clear i } := by
  obtain ⟨⟨hlt, hdiv⟩, hfits⟩ := h.pending i _ hp
  refine ⟨h.parts, fun x hx => ?_, fun x hx => ?_, fun x hx y hy => ?_, fun j p hj => ?_⟩
  · rcases T.mem_insert.mp hx with rfl | hx
    · exact ⟨hs, hlt⟩
    · exact h.bounds x hx
  · rcases T.mem_insert.mp hx with rfl | hx
    · exact hdiv
    · exact h.divides x hx
  · rcases T.mem_insert.mp hx with rfl | hx'
    · rcases T.mem_insert.mp hy with rfl | hy'
      · exact .inr ⟨rfl, rfl⟩
      · exact hfits y hy'
    · rcases T.mem_insert.mp hy with rfl | hy'
      · exact (hfits x hx').symm
      · exact h.fits x hx' y hy'
  · obtain ⟨hne, hget⟩ := get_pending_clear hj
    exact (h.pending j p hget).insert T (hallows j p hget hne)

lemma Inv.step {a : Action} (h : Inv σ) (hC : σ.Undisturbed a) (hs : σ.step T a = some σ') :
    Inv σ' := by
  cases a with
  | split start m newID replicas =>
    rw [State.step] at hs
    cases hget : σ.pd.cache.get start with
    | none => simp [hget] at hs
    | some d =>
      simp only [hget, Option.ite_none_right_eq_some, Option.some.injEq] at hs
      obtain ⟨⟨hlo, hhi⟩, rfl⟩ := hs
      obtain rfl := h.parts.keyed start d hget
      refine ⟨h.parts.split hget hlo hhi, h.bounds, fun x hx => (h.divides x hx).split hget hlo hhi,
        h.fits, fun i p hp => (h.pending i p hp).split h.parts hget hlo hhi ?_⟩
      exact hC d hget (i, p) (σ.pending.mem_entries_iff.mpr hp)
  | miss i key =>
    rw [State.step] at hs
    split at hs
    · rename_i hmiss
      cases hs
      exact h.pending_put i fun x hx hspan =>
        absurd hspan (not_spans_of_notFound h.bounds hmiss x hx)
    · cases hs
  | answer i =>
    rw [State.step] at hs
    split at hs
    · rename_i key hp
      split at hs
      · cases hs
        exact h.pending_clear i
      · rename_i rd hl
        cases hs
        exact h.pending_put i ((h.pending i _ hp).answer h.parts h.divides hl)
    · cases hs
  | add i =>
    rw [State.step] at hs
    split at hs
    · rename_i rd hp
      have hlt := (h.pending i _ hp).1.1
      by_cases hstart : rd.startKey = []
      · rw [add_nil T σ.rangeCache hstart hlt] at hs
        cases hs
        exact h.pending_clear i
      · rw [σ.rangeCache.add_of_lt T hstart hlt] at hs
        cases hs
        refine h.insert hp hstart fun j p hj hne => ?_
        exact hC rd (by rw [hp]; rfl) (j, p) (σ.pending.mem_entries_iff.mpr hj) hne
    · cases hs
  | clear left =>
    cases hs
    have hsub : ∀ x ∈ σ.rangeCache.tree.filter left, x ∈ σ.rangeCache.tree :=
      fun x hx => (List.mem_filter.mp hx).1
    exact ⟨h.parts, fun x hx => h.bounds x (hsub x hx), fun x hx => h.divides x (hsub x hx),
      fun x hx y hy => h.fits x (hsub x hx) y (hsub y hy),
      fun i p hp => (h.pending i p hp).subset hsub⟩

lemma Inv.run {l : List Action} (h : Inv σ) (hC : Along (State.step T) State.Undisturbed σ l)
    (hrun : run (State.step T) σ l = some σ') : Inv σ' :=
  invariant (fun _ _ _ hi hc hs => hi.step hc hs) h hC hrun

end Step

/-- **The descriptors in the cache do not conflict** while the lookups do not disturb each other.
Any two of them have disjoint spans or the same one, and a lookup finds a descriptor exactly if one
spans the key. -/
theorem entries_never_conflict (T : Client.IntervalTree) {pd : RangeDescriptorCache} (hp : Parts pd)
    {l : List Action} (hC : Along (State.step T) State.Undisturbed { pd } l) {σ : State}
    (hrun : run (State.step T) { pd } l = some σ) :
    (∀ x ∈ σ.rangeCache.tree, ∀ y ∈ σ.rangeCache.tree,
      (∀ k, Spans x k → ¬Spans y k) ∨ (x.startKey = y.startKey ∧ x.endKey = y.endKey)) ∧
    ∀ key,
      ((∃ rd, σ.rangeCache.lookup key = .ok rd) ↔ ∃ x ∈ σ.rangeCache.tree, Spans x key) ∧
      ∀ rd, σ.rangeCache.lookup key = .ok rd → rd ∈ σ.rangeCache.tree ∧ Spans rd key := by
  have hinv := (inv_start hp).run hC hrun
  refine ⟨hinv.fits, fun key => ?_⟩
  rcases lookup_spec hinv.bounds key with ⟨rd, hmem, hl, hspan⟩ | ⟨⟨e, hl⟩, hnone⟩
  · refine ⟨iff_of_true ⟨rd, hl⟩ ⟨rd, hmem, hspan⟩, fun rd' hl' => ?_⟩
    rw [hl] at hl'
    cases hl'
    exact ⟨hmem, hspan⟩
  · have hfail : ∀ rd, σ.rangeCache.lookup key ≠ .ok rd := by
      intro rd hok
      rw [hl] at hok
      cases hok
    refine ⟨iff_of_false (fun ⟨rd, hok⟩ => hfail rd hok) ?_, fun rd hok => absurd hok (hfail rd)⟩
    rintro ⟨x, hx, hspan⟩
    exact hnone x hx hspan

/-- One range. -/
def undivided : RangeDescriptorCache :=
  RangeDescriptorCache.add { minReplica := 1 } [⟨1, [1], [5], [⟨1, 1⟩]⟩]

lemma parts_undivided : Parts undivided := by
  have hget : ∀ s d, undivided.cache.get s = some d → s = [1] ∧ d = ⟨1, [1], [5], [⟨1, 1⟩]⟩ := by
    intro s d hd
    rw [undivided, RangeDescriptorCache.add, List.foldl_cons, List.foldl_nil,
      RangeDescriptorCache.addOne_get] at hd
    split_ifs at hd with hs
    · cases hd
      exact ⟨hs, rfl⟩
    · cases hd
  refine ⟨fun s d hd => ?_, fun s d s' d' hd hd' hne => ?_⟩
  · obtain ⟨rfl, rfl⟩ := hget s d hd
    rfl
  · exact absurd ((hget s d hd).1.trans (hget s' d' hd').1.symm) hne

/-- The range is split while two lookups wait for it, which then have different halves. -/
def halvesAdded : List Action :=
  [.miss 0 [2], .miss 1 [4], .split [1] [3] 2 [⟨1, 1⟩], .answer 0, .answer 1, .add 0, .add 1]

theorem entries_never_conflict_halves :
    Along (State.step .byStart) State.Undisturbed { pd := undivided } halvesAdded ∧
      ∃ σ, run (State.step .byStart) { pd := undivided } halvesAdded = some σ ∧
        σ.rangeCache.tree = [⟨2, [1], [3], [⟨1, 1⟩]⟩, ⟨1, [3], [5], [⟨1, 1⟩]⟩] ∧
        ∃ rd, σ.rangeCache.lookup [4] = .ok rd := by
  have hC : Along (State.step .byStart) State.Undisturbed { pd := undivided } halvesAdded := by
    decide +kernel
  obtain ⟨σ, hrun, htree⟩ : ∃ σ, run (State.step .byStart) { pd := undivided } halvesAdded =
      some σ ∧ σ.rangeCache.tree = [⟨2, [1], [3], [⟨1, 1⟩]⟩, ⟨1, [3], [5], [⟨1, 1⟩]⟩] :=
    ⟨_, rfl, rfl⟩
  have hspec := (entries_never_conflict .byStart parts_undivided hC hrun).2 [4]
  refine ⟨hC, σ, hrun, htree, hspec.1.mpr ?_⟩
  exact ⟨⟨1, [3], [5], [⟨1, 1⟩]⟩, by simp [htree], by constructor <;> decide⟩

/-- One lookup has the range from before the split, another one from after it, and both add what
they have. -/
def oldAndNewAdded : List Action :=
  [.miss 0 [2], .answer 0, .split [1] [3] 2 [⟨1, 1⟩], .miss 1 [2], .answer 1, .add 1, .add 0]

/-- **Descriptors in conflict**: the whole range and its lower half are both in the cache. -/
theorem whole_and_half_cached :
    ∃ σ, run (State.step .byStart) { pd := undivided } oldAndNewAdded = some σ ∧
      ∃ x ∈ σ.rangeCache.tree, ∃ y ∈ σ.rangeCache.tree,
        (Spans x [2] ∧ Spans y [2]) ∧ x.endKey ≠ y.endKey := by
  refine ⟨_, rfl, ⟨2, [1], [3], [⟨1, 1⟩]⟩, ?_, ⟨1, [1], [5], [⟨1, 1⟩]⟩, ?_, ?_⟩
  · exact List.mem_of_elem_eq_true rfl
  · exact List.mem_of_elem_eq_true rfl
  · decide

end Ancestor.CacheEntries
