import Ancestor.Session

/-!
Iterators over whatever ranges there are (`client/iter.go`, `client/base.go`,
`client/range_cache.go`).

The iterator of `Session` reads from one store whose ranges do not change. Here the placement
driver and the nodes are parameters: ranges may move between two requests, and any request may
fail. What the loop over the ranges can do is said once, as a relation between the key it starts
from and what it ends with.
-/

namespace Ancestor.Client

open Hoare

/-! ### Rows -/

section Rows

variable {rows : List KeyValue} {s e : Key}

/-- The rows from `s` on, up to the end of the keys of the users. -/
def ahead (rows : List KeyValue) (s : Key) : List KeyValue :=
  rows.filter fun row => decide (s ≤ row.key ∧ row.key < endPrefix)

/-- The rows from `s` up to `e`. -/
def within (rows : List KeyValue) (s e : Key) : List KeyValue :=
  rows.filter fun row => decide (s ≤ row.key ∧ row.key < e)

lemma mem_ahead {row : KeyValue} :
    row ∈ ahead rows s ↔ row ∈ rows ∧ s ≤ row.key ∧ row.key < endPrefix := by
  rw [ahead, List.mem_filter, decide_eq_true_iff]

lemma ahead_end (h : endPrefix ≤ s) : ahead rows s = [] := by
  rw [ahead, List.filter_eq_nil_iff]
  intro row _
  simpa using fun hs => h.trans hs

lemma ahead_of_le (hse : s ≤ e) :
    ahead rows e = (ahead rows s).filter fun row => decide (e ≤ row.key) := by
  rw [ahead, ahead, List.filter_filter]
  refine List.filter_congr fun row _ => ?_
  rw [← Bool.decide_and, decide_eq_decide]
  exact ⟨fun h => ⟨h.1, hse.trans h.1, h.2⟩, fun h => ⟨h.1, h.2.2⟩⟩

/-- A sorted list of rows, cut at a key. -/
lemma filter_lt_append_filter_le {l : List KeyValue} (h : l.Pairwise fun a b => a.key < b.key)
    (e : Key) :
    l.filter (fun row => decide (row.key < e)) ++
      l.filter (fun row => decide (e ≤ row.key)) = l := by
  induction l with
  | nil => rfl
  | cons row l ih =>
    obtain ⟨hrow, hl⟩ := List.pairwise_cons.mp h
    by_cases hlt : row.key < e
    · simp [hlt, ih hl]
    · have hle := not_lt.mp hlt
      have hbelow : l.filter (fun row => decide (row.key < e)) = [] := by
        rw [List.filter_eq_nil_iff]
        intro row' hrow'
        simpa using hle.trans (hrow row' hrow').le
      have habove : l.filter (fun row => decide (e ≤ row.key)) = l := by
        rw [List.filter_eq_self]
        intro row' hrow'
        simpa using hle.trans (hrow row' hrow').le
      simp [hle, hbelow, habove]

variable (hsorted : rows.Pairwise fun a b => a.key < b.key)
include hsorted

lemma sorted_ahead : (ahead rows s).Pairwise fun a b => a.key < b.key := hsorted.filter _

/-- The rows of a range come first, those after its end follow. -/
lemma ahead_split (hse : s ≤ e) (he : e ≤ endPrefix) :
    ahead rows s = within rows s e ++ ahead rows e := by
  have hbelow : (ahead rows s).filter (fun row => decide (row.key < e)) = within rows s e := by
    rw [ahead, within, List.filter_filter]
    refine List.filter_congr fun row _ => ?_
    rw [← Bool.decide_and, decide_eq_decide]
    exact ⟨fun h => ⟨h.2.1, h.1⟩, fun h => ⟨h.2, h.1, h.2.trans_le he⟩⟩
  rw [← hbelow, ahead_of_le hse, filter_lt_append_filter_le (sorted_ahead hsorted)]

/-- From the second row on, the rows are those after the first. -/
lemma ahead_second {row row' : KeyValue} {l : List KeyValue} (h : ahead rows s = row :: row' :: l) :
    ahead rows row'.key = row' :: l := by
  have hs := sorted_ahead hsorted (s := s)
  rw [h] at hs
  obtain ⟨hrow, htail⟩ := List.pairwise_cons.mp hs
  obtain ⟨hrow', -⟩ := List.pairwise_cons.mp htail
  have hmem : row' ∈ ahead rows s := h ▸ .tail _ List.mem_cons_self
  rw [ahead_of_le (mem_ahead.mp hmem).2.1, h,
    List.filter_cons_of_neg (by simpa using hrow _ List.mem_cons_self), List.filter_eq_self]
  intro x hx
  rcases List.mem_cons.mp hx with rfl | hx
  · simp
  · simpa using (hrow' x hx).le

end Rows

/-! ### The iterator -/

/-- The iterator after a fetch. -/
def Iter.fetched (it : Iter) (p : Option KeyValue × Key) : Iter :=
  { it with result := p.1, scanKey := p.2 }

/-- What an iterator reaches in a world `W`: the cache of the client, the placement driver and
the nodes. `scan` is what the closure of `scanMutilRange` gets from a node, with an aborted read
turned into `ReadPriorityError`; `tree` is the tree of the cache, and `left` are the descriptors
that a clear of the cache leaves. -/
structure Reach (W : Type) where
  rangeCache : W → RangeDescriptorCache
  setRangeCache : RangeDescriptorCache → W → W
  tree : IntervalTree := .byStart
  left : W → RangeDescriptor → Bool := fun _ _ => false
  getRangeDescriptors : Key → CM W RangeDescriptor
  getNodeConn : NodeID → CM W Unit
  isStop : CM W Bool
  scan : Key → NodeID → RangeDescriptor → CM W (List KeyValue)

namespace Reach

variable {W : Type} (r : Reach W)

def getRangeDescFromCache (key : Key) : CM W RangeDesc := do
  match (r.rangeCache (← getThe W)).lookup key with
  | .error .notFound =>
    let rd ← traced (r.getRangeDescriptors key)
    let rangeCache ← ofCache ((r.rangeCache (← getThe W)).add r.tree rd)
    modify (r.setRangeCache rangeCache)
    return { desc := ← ofCache (rangeCache.lookup key) }
  | found => return { desc := ← ofCache found }

def base : Base W where
  getRangeDescFromCache := r.getRangeDescFromCache
  clearRangeCache := modify fun w => r.setRangeCache ⟨(r.rangeCache w).tree.filter (r.left w)⟩ w
  getNodeConn := r.getNodeConn
  isStop := r.isStop

/-- A turn of the loop: the range that was asked in the end, and its rows. -/
def request (scanKey : Key) : CM W (Option (RangeDescriptor × List KeyValue)) :=
  requestNode r.base scanKey fun id rd => do
    let kv ← r.scan scanKey id rd
    return (rd, kv)

def scanMutilRange : ℕ → Key → CM W (Option KeyValue × Key)
  | 0, _ => throw ⟨.needRetry none, false⟩
  | fuel + 1, scanKey => do
    if endPrefix.isPrefixOf scanKey then return (none, [])
    let val ← traced (r.request scanKey)
    let (currRD, kv) := val.getD (⟨0, [], [], []⟩, [])
    match kv with
    | [] => scanMutilRange fuel currRD.endKey
    | [row] => return (some row, currRD.endKey)
    | row :: row' :: _ => return (some row, row'.key)

variable (fuel : ℕ)

-- An error is logged and not returned; a panic is no error.
def next (it : Iter) : CM W Iter := fun w =>
  match r.scanMutilRange fuel it.scanKey w with
  | .ok (result, scanKey) w => .ok { it with result, scanKey } w
  | .error e w =>
    match e.cause with
    | .panic _ => .error e w
    | _ => .ok { it with result := none, scanKey := [] } w

variable {r fuel}

lemma next_of_ok {it : Iter} {w w' : W} {p : Option KeyValue × Key}
    (h : r.scanMutilRange fuel it.scanKey w = .ok p w') :
    r.next fuel it w = .ok (it.fetched p) w' := by
  rw [next, h]
  rfl

/-- A fetch that has failed looks like the end. -/
lemma next_of_error {it : Iter} {w w' : W} {e : Error}
    (h : r.scanMutilRange fuel it.scanKey w = .error e w') (he : ∀ msg, e.cause ≠ .panic msg) :
    r.next fuel it w = .ok (it.fetched (none, [])) w' := by
  rw [next, h]
  show (match e.cause with | .panic _ => _ | _ => _) = _
  cases hcause : e.cause with
  | panic msg => exact absurd hcause (he msg)
  | _ => rfl

variable (r fuel)

def seek (doPutData : CM W Unit) (k : Key) : CM W Iter := do
  if k.length = 0 then throw ⟨.invalidKey, false⟩
  else
    traced doPutData
    r.next fuel (newIter k)

variable {r fuel}

lemma seek_eq {doPutData : CM W Unit} {k : Key} (hk : k ≠ []) {w w' : W}
    (hput : doPutData w = .ok () w') : r.seek fuel doPutData k w = r.next fuel (newIter k) w' := by
  rw [seek, if_neg (by simpa using hk), run_bind_ok (traced_ok hput)]

/-- An iterator comes from the first `Next`, after the writes of the transaction are out. -/
lemma seek_cases {doPutData : CM W Unit} {k : Key} {w w₁ : W} {it : Iter}
    (h : r.seek fuel doPutData k w = .ok it w₁) :
    k ≠ [] ∧ ∃ w', doPutData w = .ok () w' ∧ r.next fuel (newIter k) w' = .ok it w₁ := by
  rw [seek] at h
  by_cases hk : k.length = 0
  · rw [if_pos hk] at h
    cases h
  rw [if_neg hk] at h
  cases hput : doPutData w with
  | error e w' =>
    rw [run_bind_error (traced_error hput)] at h
    cases h
  | ok u w' =>
    rw [run_bind_ok (traced_ok hput)] at h
    exact ⟨fun hnil => hk (by rw [hnil]; rfl), w', rfl, h⟩

end Reach

lemma newIter_scanKey (k : Key) : (newIter k).scanKey = userPrefix ++ k := by
  simp [newIter, userKey, newKey]

/-! ### The iterator of a session -/

/-- What a session reaches: ranges that stay as they are, on one store. -/
def Env.reach (env : Env) : Reach Session where
  rangeCache w := w.rangeCache
  setRangeCache rangeCache w := { w with rangeCache }
  tree := env.tree
  left _ := env.left
  getRangeDescriptors key :=
    match env.pd.lookup key with
    | none => throw ⟨.lookup, false⟩
    | some rd => return rd
  getNodeConn _ := return
  isStop := return false
  scan scanKey _ rd := do return (← scanRange scanKey rd).2

section Session

variable (env : Env)

lemma reach_getRangeDescFromCache (key : Key) :
    env.reach.getRangeDescFromCache key = getRangeDescFromCache env key := by
  funext w
  rw [Reach.getRangeDescFromCache, getRangeDescFromCache, run_bind_get, run_bind_get]
  simp only [show env.reach.rangeCache w = w.rangeCache from rfl]
  cases hc : w.rangeCache.lookup key with
  | ok rd => rfl
  | error e =>
    cases e with
    | panic => rfl
    | notFound =>
      cases hpd : env.pd.lookup key with
      | some rd => simp only [Env.reach, hpd]; rfl
      | none => simp only [Env.reach, hpd]; rfl

lemma reach_base : env.reach.base = base env := by
  unfold Reach.base base
  congr 1
  exact funext (reach_getRangeDescFromCache env)

lemma reach_request (s : Key) :
    env.reach.request s = requestNode (base env) s fun _ rd => scanRange s rd := by
  have hcall : ∀ rd, (do let kv ← env.reach.scan s 0 rd; return (rd, kv)) = scanRange s rd := by
    intro rd
    simp only [Env.reach, scanRange, bind_assoc, pure_bind]
  rw [Reach.request, reach_base]
  exact congrArg _ (funext fun _ => funext hcall)

/-- **The iterator of a session** is the iterator over what the session reaches. -/
theorem reach_scanMutilRange (fuel : ℕ) (s : Key) :
    env.reach.scanMutilRange fuel s = scanMutilRange env fuel s := by
  induction fuel generalizing s with
  | zero => rfl
  | succ fuel ih =>
    have hrest : env.reach.scanMutilRange fuel = scanMutilRange env fuel := funext ih
    rw [Reach.scanMutilRange, reach_request, hrest]
    rfl

lemma reach_next (it : Iter) : env.reach.next env.turns it = it.next env := by
  funext w
  rw [Reach.next, Iter.next, reach_scanMutilRange]
  rcases scanMutilRange env env.turns it.scanKey w with ⟨p, w'⟩ | ⟨⟨cause, _⟩, w'⟩
  · rfl
  · cases cause <;> rfl

lemma reach_seek [Backend] (k : Key) (choice : Choice) :
    env.reach.seek env.turns (doPutData env choice) k = seek env k choice := by
  rw [Reach.seek, seek, reach_next]

end Session

/-! ### What the loop can do -/

/-- What the loop ends with when it starts from a key: it has passed ranges without rows and has
met the end of the keys, or a range with one row, or one with more. `A s rd kv` is what is known
of the rows `kv` that the range `rd` has answered from `s` on. -/
inductive Found (A : Key → RangeDescriptor → List KeyValue → Prop) :
    Key → Option KeyValue × Key → Prop
  | stop {s : Key} (h : endPrefix.isPrefixOf s = true) : Found A s (none, [])
  | skip {s : Key} {rd : RangeDescriptor} {p : Option KeyValue × Key} (h : A s rd [])
      (hp : Found A rd.endKey p) : Found A s p
  | last {s : Key} {rd : RangeDescriptor} {row : KeyValue} (h : A s rd [row]) :
      Found A s (some row, rd.endKey)
  | more {s : Key} {rd : RangeDescriptor} {row row' : KeyValue} {l : List KeyValue}
      (h : A s rd (row :: row' :: l)) : Found A s (some row, row'.key)

section Loop

variable {W : Type} {r : Reach W} {A : Key → RangeDescriptor → List KeyValue → Prop}
  {K : Key → Prop} {P : W → Prop}

/-- **The loop, when requests may fail.** `K` are the keys it comes to. -/
theorem triple_scanMutilRange {G : Error → Prop} (hG : ∀ e, G e → G e.trace)
    (hfuel : G ⟨.needRetry none, false⟩)
    (hreq : ∀ s, K s → endPrefix.isPrefixOf s = false → Triple P (r.request s)
      (fun v w => ∃ p, v = some p ∧ (A s p.1 p.2 ∧ K p.1.endKey) ∧ P w) fun e w => G e ∧ P w)
    (fuel : ℕ) {s : Key} (hs : K s) :
    Triple P (r.scanMutilRange fuel s) (fun p w => Found A s p ∧ P w) fun e w => G e ∧ P w := by
  induction fuel generalizing s with
  | zero => exact triple_throw fun _ hw => ⟨hfuel, hw⟩
  | succ fuel ih =>
    rw [Reach.scanMutilRange]
    by_cases hend : endPrefix.isPrefixOf s = true
    · rw [if_pos hend]
      exact triple_pure fun _ hw => ⟨.stop hend, hw⟩
    rw [if_neg hend]
    refine (triple_traced hG (hreq s hs (Bool.eq_false_iff.mpr hend))).bind fun v => ?_
    rintro w ⟨⟨rd, kv⟩, rfl, ⟨hA, hK⟩, hw⟩
    match kv with
    | [] =>
      exact (ih hK).imp (fun _ h => h) (fun _ _ h => ⟨.skip hA h.1, h.2⟩) (fun _ _ h => h) w hw
    | [row] => exact ⟨.last hA, hw⟩
    | row :: row' :: l => exact ⟨.more hA, hw⟩

/-- **The loop, when no request fails.** Each range that is passed makes `m` smaller, and the
fuel is enough. -/
theorem scanMutilRange_found {m : W → Key → ℕ}
    (hreq : ∀ w s, P w → K s → endPrefix.isPrefixOf s = false → ∃ rd kv w',
      r.request s w = .ok (some (rd, kv)) w' ∧ (A s rd kv ∧ K rd.endKey) ∧ P w' ∧
        m w' rd.endKey < m w s)
    (fuel : ℕ) {w : W} {s : Key} (hw : P w) (hs : K s) (hfuel : m w s < fuel) :
    ∃ p w', r.scanMutilRange fuel s w = .ok p w' ∧ Found A s p ∧ P w' := by
  induction fuel generalizing w s with
  | zero => omega
  | succ fuel ih =>
    rw [Reach.scanMutilRange]
    by_cases hend : endPrefix.isPrefixOf s = true
    · rw [if_pos hend]
      exact ⟨_, w, rfl, .stop hend, hw⟩
    rw [if_neg hend]
    obtain ⟨rd, kv, w', hrun, ⟨hA, hK⟩, hw', hm⟩ := hreq w s hw hs (Bool.eq_false_iff.mpr hend)
    rw [run_bind_ok (traced_ok hrun)]
    match kv with
    | [] =>
      obtain ⟨p, w'', hrun', hp, hw''⟩ := ih hw' hK (by omega)
      exact ⟨p, w'', hrun', .skip hA hp, hw''⟩
    | [row] => exact ⟨_, w', rfl, .last hA, hw'⟩
    | row :: row' :: l => exact ⟨_, w', rfl, .more hA, hw'⟩

end Loop

/-! ### The next row -/

/-- Where an iterator stands: on the first of the rows `l`, with the others from its scan key on. -/
def Stands (rows : List KeyValue) (p : Option KeyValue × Key) : List KeyValue → Prop
  | [] => p = (none, [])
  | row :: l => p.1 = some row ∧ userPrefix ≤ p.2 ∧ p.2 ≤ endPrefix ∧ ahead rows p.2 = l

/-- The keys between which an iterator moves. -/
def InUserSpan (s : Key) : Prop := userPrefix ≤ s ∧ s ≤ endPrefix

/-- A range has answered with its first two rows from `s` on. -/
structure FirstTwo (rows : List KeyValue) (s : Key) (rd : RangeDescriptor) (kv : List KeyValue) :
    Prop where
  stop : s < rd.endKey
  inside : rd.endKey ≤ endPrefix
  answer : kv = (within rows s rd.endKey).take 2

lemma lt_endPrefix {s : Key} (hs : InUserSpan s) (h : endPrefix.isPrefixOf s = false) :
    s < endPrefix := by
  refine lt_of_le_of_ne hs.2 fun heq => ?_
  rw [heq] at h
  exact absurd h (by decide)

/-- **The loop ends on the next row.** Two rows are enough to know where to go on: from the
second one, or from the end of the range when there is none. -/
theorem Found.stands {rows : List KeyValue} (hsorted : rows.Pairwise fun a b => a.key < b.key)
    {s : Key} {p : Option KeyValue × Key} (h : Found (FirstTwo rows) s p) (hs : InUserSpan s) :
    Stands rows p (ahead rows s) := by
  induction h with
  | stop hend =>
    obtain ⟨t, rfl⟩ := List.isPrefixOf_iff_prefix.mp hend
    have hle : endPrefix ≤ endPrefix ++ t := Bytes.cons_le_cons (Bytes.nil_le t)
    rw [ahead_end hle]
    rfl
  | @skip s rd p hA _ ih =>
    have hnone : within rows s rd.endKey = [] := by
      simpa using hA.answer.symm
    rw [ahead_split hsorted hA.stop.le hA.inside, hnone]
    exact ih ⟨hs.1.trans hA.stop.le, hA.inside⟩
  | @last s rd row hA =>
    have hone : within rows s rd.endKey = [row] := by
      have hanswer := hA.answer
      generalize within rows s rd.endKey = l at hanswer
      match l with
      | [row'] => exact hanswer.symm
    rw [ahead_split hsorted hA.stop.le hA.inside, hone]
    exact ⟨rfl, hs.1.trans hA.stop.le, hA.inside, rfl⟩
  | @more s rd row row' l hA =>
    have hsplit := ahead_split hsorted hA.stop.le hA.inside
    have hanswer := hA.answer
    generalize within rows s rd.endKey = here at hanswer hsplit
    match here with
    | row₁ :: row₂ :: rest =>
      cases hanswer
      have hmem : row' ∈ ahead rows s := hsplit ▸ .tail _ List.mem_cons_self
      obtain ⟨-, hle, hlt⟩ := mem_ahead.mp hmem
      rw [hsplit]
      exact ⟨rfl, hs.1.trans hle, hlt.le, ahead_second hsorted hsplit⟩

end Ancestor.Client
