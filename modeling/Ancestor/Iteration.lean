import Ancestor.IteratorCalls
import Ancestor.OwnWrites

/-!
Whole iterations: `Seek`, then `Next` while the iterator is valid.

When no fetch fails the rows come one by one, all of them, and the iterator is invalid after the
last one. `Next` does not return the error of a fetch that has failed: the iterator is then
invalid as it is at the end, and the rows that were ahead of it are not seen.
-/

namespace Ancestor.Client

open Hoare
open Protocol (isUserKey)

section Iterate

variable {W : Type} (r : Reach W) (fuel : ℕ)

/-- The loop `for ; it.Valid(); it.Next()`, for at most `n` rows: what is read, and the iterator
after it. -/
def Reach.rest : ℕ → Iter → CM W (List (Key × Bytes) × Iter)
  | 0, it => return ([], it)
  | n + 1, it =>
    match it.row with
    | none => return ([], it)
    | some p => do
      let it ← r.next fuel it
      let (l, it) ← rest n it
      return (p :: l, it)

def Reach.iterate (doPutData : CM W Unit) (n : ℕ) (k : Key) :
    CM W (List (Key × Bytes) × Iter) := do
  let it ← r.seek fuel doPutData k
  r.rest fuel n it

/-- A fetch, from which key it is and whether it fails, and what follows one that does not. -/
def Reach.fetchesThen (more : Iter → W → List (Key × Bool)) (it : Iter) (w : W) :
    List (Key × Bool) :=
  match r.scanMutilRange fuel it.scanKey w with
  | .ok p w' => (it.scanKey, false) :: more (it.fetched p) w'
  | .error _ _ => [(it.scanKey, true)]

/-- The fetches of `rest`. -/
def Reach.fetches : ℕ → Iter → W → List (Key × Bool)
  | 0, _, _ => []
  | n + 1, it, w => if it.valid then r.fetchesThen fuel (fetches n) it w else []

end Iterate

section Rest

variable {W : Type} {r : Reach W} {fuel : ℕ} {it : Iter} {w : W}

lemma rest_invalid (n : ℕ) (h : it.result = none) : r.rest fuel n it w = .ok ([], it) w := by
  cases n with
  | zero => rfl
  | succ n =>
    rw [Reach.rest, Iter.row, h]
    rfl

lemma rest_valid {n : ℕ} {row : KeyValue} {it' : Iter} {w' : W} (h : it.result = some row)
    (hnext : r.next fuel it w = .ok it' w') : r.rest fuel (n + 1) it w =
      (do let (l, it) ← r.rest fuel n it'; return (row.pair :: l, it) : CM W _) w' := by
  rw [Reach.rest, Iter.row, h]
  simp only [Option.map_some]
  rw [run_bind_ok hnext]
  rfl

end Rest

lemma userKey_inUserSpan (k : Key) : InUserSpan (userKey k) := by
  rw [InUserSpan, userKey_eq]
  exact ⟨Bytes.cons_le_cons (Bytes.nil_le k), (List.cons_lt_cons_iff.mpr (.inl (by decide))).le⟩

/-- Rows of the users are told apart by what is read of their keys. -/
lemma key_of_pair {rows : List KeyValue} {s : Key} {row row' : KeyValue} (hs : userPrefix ≤ s)
    (h : row ∈ ahead rows s) (h' : row' ∈ ahead rows s) (hpair : row.pair = row'.pair) :
    row.key = row'.key := by
  have huser : ∀ {x}, x ∈ ahead rows s → ∃ u, x.key = userKey u := fun hx => by
    obtain ⟨-, hle, hlt⟩ := mem_ahead.mp hx
    exact exists_userKey (isUserKey_of_between (hs.trans hle) hlt)
  obtain ⟨u, hu⟩ := huser h
  obtain ⟨u', hu'⟩ := huser h'
  rw [KeyValue.pair, KeyValue.pair, Prod.mk.injEq, hu, hu', userKey_eq, userKey_eq] at hpair
  rw [hu, hu', show u = u' from hpair.1]

/-! ### Without failures -/

section Complete

variable {W : Type} {r : Reach W} {fuel : ℕ} {rows : List KeyValue} {P : W → Prop}
  (hsorted : rows.Pairwise fun a b => a.key < b.key)
  (hfetch : ∀ w s, P w → InUserSpan s → ∃ p w', r.scanMutilRange fuel s w = .ok p w' ∧
    Found (FirstTwo rows) s p ∧ P w')

include hsorted hfetch

/-- From a row on, all rows are read. The induction is on the rows that are ahead. -/
lemma rest_complete {l : List KeyValue} {it : Iter} {w : W} (hw : P w)
    (hit : Stands rows (it.result, it.scanKey) l) {n : ℕ} (hn : l.length ≤ n) :
    ∃ it' w', r.rest fuel n it w = .ok (l.map KeyValue.pair, it') w' ∧ it'.valid = false ∧
      P w' := by
  induction l generalizing it w n with
  | nil =>
    have hnone : it.result = none := congrArg Prod.fst hit
    exact ⟨it, w, rest_invalid n hnone, by rw [Iter.valid, hnone]; rfl, hw⟩
  | cons row l ih =>
    obtain ⟨hrow, hlow, hhigh, hahead⟩ := hit
    obtain ⟨n, rfl⟩ : ∃ m, n = m + 1 := ⟨n - 1, by simp only [List.length_cons] at hn; omega⟩
    obtain ⟨p, w', hrun, hfound, hw'⟩ := hfetch w it.scanKey hw ⟨hlow, hhigh⟩
    have hstands : Stands rows ((it.fetched p).result, (it.fetched p).scanKey) l :=
      hahead ▸ hfound.stands hsorted ⟨hlow, hhigh⟩
    obtain ⟨it', w'', hrest, hvalid, hw''⟩ := ih hw' hstands (Nat.le_of_succ_le_succ hn)
    refine ⟨it', w'', ?_, hvalid, hw''⟩
    rw [rest_valid hrow (Reach.next_of_ok hrun), run_bind_ok hrest]
    rfl

/-- **Seek, then Next: every row from the key on, and the end.** -/
theorem iterate_complete {doPutData : CM W Unit} {k : Key} (hk : k ≠ []) {w w₀ : W}
    (hput : doPutData w = .ok () w₀) (hw₀ : P w₀) {n : ℕ}
    (hn : (ahead rows (userKey k)).length ≤ n) :
    ∃ it w', r.iterate fuel doPutData n k w =
        .ok ((ahead rows (userKey k)).map KeyValue.pair, it) w' ∧ it.valid = false ∧ P w' := by
  have hspan := userKey_inUserSpan k
  obtain ⟨p, w₁, hrun, hfound, hw₁⟩ := hfetch w₀ (newIter k).scanKey hw₀ hspan
  have hstands : Stands rows (((newIter k).fetched p).result, ((newIter k).fetched p).scanKey)
      (ahead rows (userKey k)) := hfound.stands hsorted hspan
  obtain ⟨it, w', hrest, hvalid, hw'⟩ := rest_complete hsorted hfetch hw₁ hstands hn
  have hseek : r.seek fuel doPutData k w = .ok ((newIter k).fetched p) w₁ := by
    rw [Reach.seek_eq hk hput, Reach.next_of_ok hrun]
  exact ⟨it, w', by rw [Reach.iterate, run_bind_ok hseek, hrest], hvalid, hw'⟩

end Complete

/-! ### With failures -/

/-- A descriptor of the placement driver, up to the end of the keys of the users. -/
structure Placed (rd : RangeDescriptor) : Prop extends Proper rd where
  inside : rd.endKey ≤ endPrefix

/-- The answer of a node that does not fail. -/
def Answers (rows : List KeyValue) (s : Key) (rd : RangeDescriptor) (kv : List KeyValue) : Prop :=
  kv = (within rows s rd.endKey).take 2

/-- A row under the user's key `b`. -/
def rowB : KeyValue := ⟨userKey [98], { bytes := [2] }⟩

lemma sorted_rowAB : [rowA, rowB].Pairwise fun a b => a.key < b.key := by decide +kernel

lemma serves_answers (rows : List KeyValue) : (oneRange rows).Serves Placed (Answers rows) :=
  serves_oneRange rows (fun _ h => h.toProper) ⟨⟨by decide, by decide, by decide⟩, by decide⟩
    fun _ _ => rfl

section Failing

variable {W : Type} {r : Reach W} {fuel : ℕ} {rows : List KeyValue}
  (h : r.Serves Placed (Answers rows))

include h in
/-- A fetch that does not fail finds the next row. -/
lemma triple_fetch {s : Key} (hs : InUserSpan s) : Triple (r.Holds Placed) (r.scanMutilRange fuel s)
    (fun p w => Found (FirstTwo rows) s p ∧ r.Holds Placed w)
    fun e w => ¬ e.Panics ∧ r.Holds Placed w := by
  refine triple_scanMutilRange (K := InUserSpan) (fun _ he => he) not_panics_retries ?_ fuel hs
  intro s hs _
  have hne : s ≠ [] := by
    rintro rfl
    exact absurd hs.1 (by decide)
  refine (calm_request h hne).imp (fun _ hw => hw) ?_ fun _ _ hw => hw
  rintro v w ⟨⟨p, rfl, hp, hlt, hkv⟩, hw⟩
  exact ⟨p, rfl, ⟨⟨hlt, hp.inside, hkv⟩, hs.1.trans hlt.le, hp.inside⟩, hw⟩

include h in
lemma next_placed {it : Iter} (hs : InUserSpan it.scanKey) {w : W} (hw : r.Holds Placed w) :
    ∃ it' w', r.next fuel it w = .ok it' w' := by
  cases hrun : r.scanMutilRange fuel it.scanKey w with
  | ok p w' => exact ⟨_, w', Reach.next_of_ok hrun⟩
  | error e w' =>
    obtain ⟨he, -⟩ := (triple_fetch h hs).of_error hw hrun
    exact ⟨_, w', Reach.next_of_error hrun fun msg hmsg => he ⟨msg, hmsg⟩⟩

variable (hsorted : rows.Pairwise fun a b => a.key < b.key)
include h hsorted

/-- What is read up to the end comes first, and what was ahead of a fetch that has failed is left
over. The induction is on the number of fetches; only the last one can fail. -/
lemma rest_fetches {n : ℕ} {it it' itf : Iter} {w w' wf : W} {l : List (Key × Bytes)}
    (hs : InUserSpan it.scanKey) (hw : r.Holds Placed w) (hnext : r.next fuel it w = .ok it' w')
    (hrest : r.rest fuel n it' w' = .ok (l, itf) wf) (hend : itf.valid = false) :
    ∃ p tail, ahead rows it.scanKey = p ++ tail ∧ l = p.map KeyValue.pair ∧
      (tail = [] ↔ ∀ s, (s, true) ∈ r.fetchesThen fuel (r.fetches fuel n) it w →
        ahead rows s = []) := by
  induction n using Nat.strong_induction_on generalizing it it' w w' l with
  | _ n ih =>
  cases hrun : r.scanMutilRange fuel it.scanKey w with
  | error e w₁ =>
    obtain ⟨he, -⟩ := (triple_fetch h hs).of_error hw hrun
    rw [Reach.next_of_error hrun fun msg hmsg => he ⟨msg, hmsg⟩] at hnext
    cases hnext
    rw [rest_invalid n rfl] at hrest
    cases hrest
    refine ⟨[], ahead rows it.scanKey, rfl, rfl, ?_⟩
    simp only [Reach.fetchesThen, hrun, List.mem_singleton, Prod.mk.injEq, and_true, forall_eq]
  | ok q w₁ =>
    obtain ⟨hfound, hw₁⟩ := (triple_fetch h hs).of_ok hw hrun
    have hstands := hfound.stands hsorted hs
    rw [Reach.next_of_ok hrun] at hnext
    cases hnext
    simp only [Reach.fetchesThen, hrun]
    cases hahead : ahead rows it.scanKey with
    | nil =>
      obtain rfl : q = (none, []) := by rwa [hahead] at hstands
      rw [rest_invalid n rfl] at hrest
      cases hrest
      refine ⟨[], [], rfl, rfl, iff_of_true rfl ?_⟩
      cases n <;> simp [Reach.fetches, Iter.fetched, Iter.valid]
    | cons row l₀ =>
      rw [hahead] at hstands
      obtain ⟨hrow, hlow, hhigh, hl₀⟩ := hstands
      have hvalid : (it.fetched q).valid = true := by simp [Iter.fetched, Iter.valid, hrow]
      obtain _ | n := n
      · cases hrest
        rw [hvalid] at hend
        cases hend
      have hspan : InUserSpan (it.fetched q).scanKey := ⟨hlow, hhigh⟩
      obtain ⟨it₂, w₂, hnext₂⟩ := next_placed h hspan hw₁
      rw [rest_valid hrow hnext₂] at hrest
      cases hrest₂ : r.rest fuel n it₂ w₂ with
      | error e w₃ =>
        rw [run_bind_error hrest₂] at hrest
        cases hrest
      | ok res w₃ =>
        rw [run_bind_ok hrest₂] at hrest
        cases hrest
        obtain ⟨p, tail, hsplit, hl, htail⟩ := ih n (Nat.lt_succ_self n) hspan hw₁ hnext₂ hrest₂
        refine ⟨row :: p, tail, ?_, by rw [hl]; rfl, htail.trans ?_⟩
        · rw [← hl₀, List.cons_append, ← hsplit]
          rfl
        · simp [Reach.fetches, hvalid]

/-- **When an iteration tells of its failures.** An iteration in which every call returns nil and
the iterator is invalid in the end has read every row from the key on, exactly when no fetch has
failed while there were rows ahead of it. -/
theorem iteration_whole_iff {doPutData : CM W Unit} {k : Key} {n : ℕ} {w w₀ w' : W} {it : Iter}
    {l : List (Key × Bytes)} (hput : doPutData w = .ok () w₀) (hw₀ : r.Holds Placed w₀)
    (hrun : r.iterate fuel doPutData n k w = .ok (l, it) w') (hend : it.valid = false) :
    (∀ row ∈ ahead rows (userKey k), row.pair ∈ l) ↔
      ∀ s, (s, true) ∈ r.fetchesThen fuel (r.fetches fuel n) (newIter k) w₀ →
        ahead rows s = [] := by
  have hspan := userKey_inUserSpan k
  cases hseek : r.seek fuel doPutData k w with
  | error e w₁ =>
    rw [Reach.iterate, run_bind_error hseek] at hrun
    cases hrun
  | ok it₁ w₁ =>
    rw [Reach.iterate, run_bind_ok hseek] at hrun
    obtain ⟨-, w₂, hput', hnext⟩ := Reach.seek_cases hseek
    rw [hput] at hput'
    cases hput'
    obtain ⟨p, tail, hsplit, rfl, htail⟩ := rest_fetches h hsorted hspan hw₀ hnext hrun hend
    rw [← htail, show ahead rows (userKey k) = p ++ tail from hsplit]
    constructor
    · intro hall
      by_contra hne
      obtain ⟨row, hrow⟩ := List.exists_mem_of_ne_nil tail hne
      obtain ⟨row', hrow', hpair⟩ := List.mem_map.mp (hall row (List.mem_append_right p hrow))
      have hs := sorted_ahead hsorted (s := userKey k)
      rw [show ahead rows (userKey k) = p ++ tail from hsplit] at hs
      have hlt := (List.pairwise_append.mp hs).2.2 row' hrow' row hrow
      have hkey := key_of_pair hspan.1 (hsplit ▸ List.mem_append_left tail hrow')
        (hsplit ▸ List.mem_append_right p hrow) hpair
      exact absurd hlt (by rw [hkey]; exact lt_irrefl _)
    · rintro rfl row hrow
      rw [List.append_nil] at hrow
      exact List.mem_map_of_mem hrow

end Failing

/-- No fetch fails, and both rows are read. -/
theorem iteration_whole_two_rows :
    ∃ l it w', (oneRange [rowA, rowB]).iterate 2 (return) 3 [97] ({}, []) = .ok (l, it) w' ∧
      it.valid = false ∧ ∀ row ∈ ahead [rowA, rowB] (userKey [97]), row.pair ∈ l := by
  have hfetches : (oneRange [rowA, rowB]).fetchesThen 2 ((oneRange [rowA, rowB]).fetches 2 3)
      (newIter [97]) ({}, []) = [([2, 97], false), ([2, 98], false), ([3], false)] := rfl
  have hrun : (oneRange [rowA, rowB]).iterate 2 (return) 3 [97] ({}, []) =
      .ok ([([97], [1]), ([98], [2])], ⟨userKey [97], none, []⟩) (⟨[userRange]⟩, []) := rfl
  have hcache : (oneRange [rowA, rowB]).Holds Placed ({}, []) := by rintro rd ⟨⟩
  refine ⟨_, _, _, hrun, rfl,
    (iteration_whole_iff (serves_answers _) sorted_rowAB rfl hcache hrun rfl).mpr ?_⟩
  rw [hfetches]
  simp

/-- The second scan fails: `Next` returns nil, the iterator is invalid as at the end, and the
second row has not been read. -/
theorem iteration_cut_short :
    ∃ l it w', (oneRange [rowA, rowB]).iterate 2 (return) 3 [97] ({}, [false, true]) =
        .ok (l, it) w' ∧ it.valid = false ∧
      rowB ∈ ahead [rowA, rowB] (userKey [97]) ∧ rowB.pair ∉ l :=
  ⟨_, _, _, rfl, rfl, by decide +kernel, by decide +kernel⟩

end Ancestor.Client
