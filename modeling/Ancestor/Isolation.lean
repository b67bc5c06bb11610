import Ancestor.History

/-!
Isolation: no committed write is overwritten unseen, and what a transaction reads is stable
and atomic.

Both follow from the history of the keys, once every read gets what the history has at the
start of its transaction.
-/

namespace Ancestor.Protocol

open Steps Versions

variable {s s₀ : Sys} {k : Key} {l : List Act} {h : Timestamp → Option Value}

/-! ### What a history has at a timestamp -/

/-- What a read gets of the initial versions, up to a deleted one. -/
lemma Init.finds (hi : Init s₀) (hk : isUserKey k) {ts : Timestamp} {r : Option Value}
    (hr : (cell s₀.st.eng k).Reads [] ts r) :
    ∃ r', Finds (verAt s₀.st.eng k) ts r' ∧ (r.getD {}).bytes = (r'.getD {}).bytes := by
  rcases hi.committed k hk with ⟨hm, hv⟩ | ⟨m, v, hm, -, hv, hdel, -, hmax⟩
  · exact ⟨none, fun u _ => hv u, by cases hr <;> simp_all [cell]⟩
  cases hr with
  | absent hm' => cases hm.symm.trans hm'
  | ownDeleted _ _ _ hne _ | own _ _ _ _ hne _ _ => exact absurd rfl hne
  | below _ _ _ _ _ hfinds | committed _ _ _ _ _ _ hfinds => exact ⟨r, hfinds, rfl⟩
  | committedDeleted m' hm' _ hle hdel' =>
    obtain rfl : m = m' := Option.some.inj (hm.symm.trans hm')
    exact ⟨some v, finds_some hv hle fun u hu _ => hmax u hu, (hdel hdel').symm⟩

/-- The initial value of a key is what its initial versions have at any later timestamp. -/
lemma Init.readAt_eq (hi : Init s₀) (hk : isUserKey k) {ts : Timestamp} {r : Option Value}
    (hts : s₀.clock ≤ ts) (hr : Finds (verAt s₀.st.eng k) ts r) :
    readAt s₀.st.eng k s₀.clock = (r.getD {}).bytes := by
  have hd := hi.dataKey k hk
  have hne := ne_nil_of_isUserKey hk
  have hinit := hi.committed k hk
  have hno : ∀ m, metaAt s₀.st.eng k = some m → m.transactionID = [] := fun m hm => by
    rcases hinit with ⟨hm', -⟩ | ⟨m', -, hm', hid, -⟩
    · simp [hm] at hm'
    · rw [hm, Option.some.injEq] at hm'
      exact hm' ▸ hid
  have hold : ∀ u, verAt s₀.st.eng k u ≠ none → u ≤ s₀.clock := fun u hu => by
    rcases hinit with ⟨-, hv⟩ | ⟨m, -, -, -, -, -, hle, hv⟩
    · exact absurd (hv u) hu
    · exact (hv u hu).trans hle
  obtain ⟨r₀, hr₀⟩ := getInternal_ok {} hi.ok hd hne hi.clock fun m hm h => absurd (hno m hm) h
  obtain ⟨r', hr', hbytes⟩ := hi.finds hk (getInternal_reads hi.ok hd hne hi.clock hr₀)
  have hlater := hr'.mono hts fun u hu _ => by_contra fun hne => absurd (hold u hne) (not_le.mpr hu)
  rw [hr.unique hlater, ← hbytes]
  simp only [readAt, Ancestor.get, hr₀, bind, Except.bind, pure, Except.pure]

/-- The commit timestamp of a transaction that has committed. -/
def Phase.committedAt : Phase → Option Timestamp
  | .ended true t => some t
  | _ => none

lemma Phase.committedAt_eq {p : Phase} {t : Timestamp} :
    p.committedAt = some t ↔ p = .ended true t := by
  cases p with
  | ended b u => cases b <;> simp [Phase.committedAt]
  | _ => simp [Phase.committedAt]

/-- What the history has is what was there at first or what a commit has left. -/
lemma Ledger.found (hi : Init s₀) (hk : isUserKey k) (hv : Ledger s₀ s k h) {ts : Timestamp}
    {r : Option Value} (hts : s₀.clock ≤ ts) (hr : Finds h ts r) :
    readAt s₀.st.eng k s₀.clock = (r.getD {}).bytes ∨
      ∃ id w t v, s.clients.get id = some w ∧ w.phase = .ended true t ∧ w.wrote k = some v ∧
        t ≤ ts ∧ r = some v := by
  have hsub : ∀ u, h u = none → verAt s₀.st.eng k u = none := fun u hu => by
    by_contra hne
    obtain ⟨v, hv'⟩ := Option.ne_none_iff_exists'.mp hne
    simp [hv.initial u v hv'] at hu
  cases r with
  | none => exact Or.inl (hi.readAt_eq (r := none) hk hts fun u hu => hsub u (hr u hu))
  | some v =>
    obtain ⟨t, ht, hvt, hmax⟩ := hr
    rcases hv.origin t v hvt with h₀ | ⟨id, w, hw, hp, hwr⟩
    · exact Or.inl (hi.readAt_eq (r := some v) hk hts
        ⟨t, ht, h₀, fun u htu hu => hsub u (hmax u htu hu)⟩)
    · exact Or.inr ⟨id, w, t, v, hw, hp, hwr, ht, rfl⟩

/-- A commit that no other one follows is what the history has. -/
lemma Ledger.finds_commit (hi : Init s₀) (hk : isUserKey k) (hs : Told s) (hv : Ledger s₀ s k h)
    {id : Key} {w : Client} {t ts : Timestamp} {v : Value} (hw : s.clients.get id = some w)
    (hp : w.phase = .ended true t) (hwr : w.wrote k = some v) (ht : t ≤ ts)
    (hlast : ∀ i x u, s.clients.get i = some x → x.phase = .ended true u →
      (x.wrote k).isSome → u ≤ ts → u ≤ t) : Finds h ts (some v) := by
  refine finds_some (hv.committed id w t v hw hp hwr) ht fun u hu hle => ?_
  obtain ⟨v', hv'⟩ := Option.ne_none_iff_exists'.mp hu
  rcases hv.origin u v' hv' with h₀ | ⟨i, x, hx, hpx, hxr⟩
  · -- the initial versions are older than the start of any transaction
    have hstart := ((hs.clients id w hw).drawn t (by rw [hp]; rfl)).2.2.1
    rcases hi.committed k hk with ⟨-, hnone⟩ | ⟨m, -, -, -, -, -, hclock, hold⟩
    · simp [hnone u] at h₀
    · exact ((hold u (by simp [h₀])).trans hclock).trans ((hv.born id w hw).trans hstart).le
  · exact hlast i x u hx hpx (by simp [hxr]) hle

/-- Everything the client has read of `k` is what the history has at its start. -/
def Client.ReadsFrom (w : Client) (k : Key) (h : Timestamp → Option Value) : Prop :=
  ∀ x ∈ w.reads, x.key = k → ∃ r, Finds h w.txn.timestamp r ∧ x.bytes = (r.getD {}).bytes

/-! ### No lost update -/

/-- Everything the transaction has read of `k`, and it has read it, is `b`. -/
def Client.SawOnly (w : Client) (k : Key) (b : Bytes) : Prop :=
  (∃ x ∈ w.reads, x.key = k) ∧ ∀ x ∈ w.reads, x.key = k → x.bytes = b

instance (w : Client) (k : Key) (b : Bytes) : Decidable (w.SawOnly k b) :=
  inferInstanceAs (Decidable (_ ∧ _))

/-- The committed transactions that have written `k`, in the order of their commits. -/
def Sys.writers (s : Sys) (k : Key) : List Key :=
  s.commits.filter fun id => (s.clients.get id).any fun w => (w.wrote k).isSome

/-- The first of the transactions has read `b`, and each other one what the one before it has
written. -/
def Chained (s : Sys) (k : Key) : Bytes → List Key → Prop
  | _, [] => True
  | b, id :: ids => ∃ w ∈ s.clients.get id, ∃ v ∈ w.wrote k,
      w.SawOnly k b ∧ Chained s k v.bytes ids

def decChained (s : Sys) (k : Key) : (b : Bytes) → (ids : List Key) → Decidable (Chained s k b ids)
  | _, [] => isTrue trivial
  | _, id :: ids =>
    have : ∀ b, Decidable (Chained s k b ids) := fun b => decChained s k b ids
    inferInstanceAs (Decidable (∃ w ∈ s.clients.get id, ∃ v ∈ w.wrote k, _ ∧ _))

instance (s : Sys) (k : Key) (b : Bytes) (ids : List Key) : Decidable (Chained s k b ids) :=
  decChained s k b ids

/-- A transaction reads `k` before it writes it, writes it once, and does not read it again. -/
def ReadThenWrite (k : Key) (s : Sys) (a : Act) : Prop :=
  (∀ p ∈ a.puts, p.2.1 = k → ∀ w ∈ s.clients.get p.1,
    w.wrote k = none ∧ ∃ x ∈ w.reads, x.key = k) ∧
  ∀ p ∈ a.gets, p.2 = k → ∀ w ∈ s.clients.get p.1, w.wrote k = none

instance (k : Key) (s : Sys) (a : Act) : Decidable (ReadThenWrite k s a) :=
  inferInstanceAs (Decidable ((∀ p ∈ a.puts, _) ∧ ∀ p ∈ a.gets, _))

/-- A put of `k` is not the deletion of what is absent or deleted, which stores nothing. -/
def Records (k : Key) (s : Sys) (a : Act) : Prop :=
  ∀ p ∈ a.puts, p.2.1 = k → s.records k p.2.2

instance (k : Key) (s : Sys) (a : Act) : Decidable (Records k s a) :=
  inferInstanceAs (Decidable (∀ p ∈ a.puts, _))

/-- What the discipline keeps: a writer of `k` has read it, and no read came from its intent. -/
def Disciplined (s : Sys) (k : Key) : Prop :=
  ∀ id w, s.clients.get id = some w → ((w.wrote k).isSome → ∃ x ∈ w.reads, x.key = k) ∧
    ∀ x ∈ w.reads, x.key = k → x.own = false

/-- The discipline, on a key whose intent is of a transaction that has written it. -/
lemma Disciplined.step [Backend] {s' : Sys} {a : Act} (hd : Disciplined s k)
    (hown : ∀ id w m, s.clients.get id = some w → metaAt s.st.eng k = some m →
      m.transactionID = id → (w.wrote k).isSome)
    (hrw : ReadThenWrite k s a) (he : Effect s a s') : Disciplined s' k := by
  intro id w' hw'
  rcases he.logs hw' with ⟨hreads, hwrites⟩ | ⟨w, hw, -, hlog⟩
  · simp [hreads, hwrites, Client.wrote]
  obtain ⟨hread, hno⟩ := hd id w hw
  cases hlog with
  | same hreads hwrites =>
    rw [Client.wrote, hreads, hwrites]
    exact ⟨hread, hno⟩
  | read key r ha hrun hkey hr hreads hwrites =>
    rw [Client.wrote, hreads, hwrites]
    refine ⟨fun hwr => ?_, fun x hx hxk => ?_⟩
    · obtain ⟨x, hx, hxk⟩ := hread hwr
      exact ⟨x, List.mem_cons_of_mem _ hx, hxk⟩
    · rcases List.mem_cons.mp hx with rfl | hx
      · obtain rfl : key = k := hxk
        refine Bool.eq_false_iff.mpr fun ho => ?_
        obtain ⟨m, hm, hid⟩ := (Option.any_eq_true _ _).mp ho
        have hwr := hown id w m hw hm (by simpa using hid)
        simp [hrw.2 (id, key) (ha ▸ rfl) rfl w hw] at hwr
      · exact hno x hx hxk
  | write key v ha hreads hwrites =>
    rw [hreads]
    refine ⟨fun hwr => ?_, hno⟩
    by_cases hkk : key = k
    · exact (hrw.1 (id, key, v) (ha ▸ rfl) hkk w hw).2
    · exact hread (by simpa [Client.wrote, hwrites, hkk] using hwr)

lemma mem_writers {id : Key} (hv : Ledger s₀ s k h) : id ∈ s.writers k ↔
    ∃ w t v, s.clients.get id = some w ∧ w.phase = .ended true t ∧ w.wrote k = some v := by
  rw [Sys.writers, List.mem_filter, hv.commits]
  constructor
  · rintro ⟨⟨w, t, hw, hp⟩, hany⟩
    simp only [hw, Option.any_some] at hany
    obtain ⟨v, hwr⟩ := Option.isSome_iff_exists.mp hany
    exact ⟨w, t, v, hw, hp, hwr⟩
  · rintro ⟨w, t, v, hw, hp, hwr⟩
    exact ⟨⟨w, t, hw, hp⟩, by simp [hw, hwr]⟩

/-- The value of `k` once the transactions of `pre` have committed. -/
def After (s₀ s : Sys) (k : Key) (pre : List Key) (b : Bytes) : Prop :=
  (pre = [] ∧ b = readAt s₀.st.eng k s₀.clock) ∨
    ∃ pre' i w v, pre = pre' ++ [i] ∧ s.clients.get i = some w ∧ w.wrote k = some v ∧ b = v.bytes

section Chain

variable {pre post : List Key} {id : Key} {w : Client} {b : Bytes} (hi : Init s₀)
  (hk : isUserKey k) (hs : Told s) (hv : Ledger s₀ s k h) (hw : s.clients.get id = some w)
  (hsplit : s.writers k = pre ++ id :: post)

include hs hv hw hsplit

/-- What commits at or before the start of a writer is before it in the order of commits. -/
lemma mem_before {i : Key} {x : Client} {u : Timestamp} (hx : s.clients.get i = some x)
    (hp : x.phase = .ended true u) (hwr : (x.wrote k).isSome) (hu : u ≤ w.txn.timestamp) :
    i ∈ pre := by
  have hstart : ∀ j y t, s.clients.get j = some y → y.phase = .ended true t →
      y.txn.timestamp < t :=
    fun j y t hy hp => ((hs.clients j y hy).drawn t (by rw [hp]; rfl)).2.2.1
  have hmem : ∀ j, j ∈ pre ++ id :: post → ∃ y t v, s.clients.get j = some y ∧
      y.phase = .ended true t ∧ y.wrote k = some v := fun j hj => (mem_writers hv).mp (hsplit ▸ hj)
  obtain ⟨w', t, v, hw', hpw, hwv⟩ := hmem id (by simp)
  rw [hw, Option.some.injEq] at hw'
  subst hw'
  obtain ⟨v', hxv⟩ := Option.isSome_iff_exists.mp hwr
  have hin : i ∈ pre ++ id :: post := hsplit ▸ (mem_writers hv).mpr ⟨x, u, v', hx, hp, hxv⟩
  rcases List.mem_append.mp hin with hin | hin
  · exact hin
  · rcases List.mem_cons.mp hin with rfl | hin
    · rw [hw, Option.some.injEq] at hx
      exact absurd (hx ▸ hstart i x u (hx ▸ hw) hp) (not_lt.mpr hu)
    · -- a later writer started after this one's commit
      have hpair : (pre ++ id :: post).Pairwise (Before s k) := hsplit ▸ hv.ordered.filter _
      have hbefore := (List.pairwise_cons.mp (List.pairwise_append.mp hpair).2.1).1 i hin
      have hlt := hbefore w x t hw hx (by simp [hwv]) hwr hpw
      exact absurd (((hstart id w t hw hpw).trans hlt).trans (hstart i x u hx hp)) (not_lt.mpr hu)

include hi hk

/-- A writer that has read `k` has read what the writers before it have left. -/
lemma sawOnly (hd : Disciplined s k) (hfrom : w.ReadsFrom k h) (hb : After s₀ s k pre b) :
    w.SawOnly k b := by
  obtain ⟨w', t, v, hw', hpw, hwv⟩ := (mem_writers hv).mp
    (show id ∈ s.writers k by rw [hsplit]; simp)
  rw [hw, Option.some.injEq] at hw'
  subst hw'
  refine ⟨(hd id w hw).1 (by simp [hwv]), fun x hx hxk => ?_⟩
  obtain ⟨r, hr, hbytes⟩ := hfrom x hx hxk
  have hbefore := fun i x u => mem_before hs hv hw hsplit (i := i) (x := x) (u := u)
  rw [hbytes]
  rcases hb with ⟨rfl, rfl⟩ | ⟨pre', i, y, v', rfl, hy, hyv, rfl⟩
  · rcases hv.found hi hk (hv.born id w hw).le hr with h₀ | ⟨i, y, u, v', hy, hpy, hyv, hu, -⟩
    · exact h₀.symm
    · exact absurd (hbefore i y u hy hpy (by simp [hyv]) hu) (by simp)
  · -- the last writer before this one is the last to commit before its start
    have hpair : (pre' ++ [i] ++ id :: post).Pairwise (Before s k) := hsplit ▸ hv.ordered.filter _
    obtain ⟨y', u, -, hy', hpy, -⟩ := (mem_writers hv).mp
      (show i ∈ s.writers k by rw [hsplit]; simp)
    rw [hy, Option.some.injEq] at hy'
    subst hy'
    have hyw := (List.pairwise_append.mp hpair).2.2 i (by simp) id (by simp) y w u hy hw
      (by simp [hyv]) (by simp [hwv]) hpy
    have hfinds : Finds h w.txn.timestamp (some v') := by
      refine hv.finds_commit hi hk hs hy hpy hyv hyw.le fun j z u' hz hpz hzr hu' => ?_
      rcases List.mem_append.mp (hbefore j z u' hz hpz hzr hu') with hj | hj
      · have hji := (List.pairwise_append.mp (List.pairwise_append.mp hpair).1).2.2 j hj i (by simp)
        have hstart := ((hs.clients i y hy).drawn u (by rw [hpy]; rfl)).2.2.1
        exact ((hji z y u' hz hy hzr (by simp [hyv]) hpz).trans hstart).le
      · obtain rfl := List.mem_singleton.mp hj
        rw [hy, Option.some.injEq] at hz
        subst hz
        rw [hpy] at hpz
        cases hpz
        exact le_rfl
    rw [hr.unique hfinds]
    rfl

end Chain

/-- **Writers that have read from the history form a chain.** -/
theorem chained_suffix (hi : Init s₀) (hk : isUserKey k) (hs : Told s) (hv : Ledger s₀ s k h)
    (hd : Disciplined s k) (hfrom : ∀ id w, s.clients.get id = some w → (w.wrote k).isSome →
      w.ReadsFrom k h) (ids : List Key) : ∀ pre b, s.writers k = pre ++ ids →
      After s₀ s k pre b → Chained s k b ids := by
  induction ids with
  | nil => intro _ _ _ _; trivial
  | cons id ids ih =>
    intro pre b hsplit hb
    obtain ⟨w, t, v, hw, -, hwv⟩ := (mem_writers hv).mp
      (show id ∈ s.writers k by rw [hsplit]; simp)
    refine ⟨w, hw, v, hwv, sawOnly hi hk hs hv hw hsplit hd (hfrom id w hw (by simp [hwv])) hb,
      ih (pre ++ [id]) v.bytes ?_ ?_⟩
    · rw [hsplit, List.append_assoc, List.singleton_append]
    · exact Or.inr ⟨pre, id, w, v, rfl, hw, hwv, rfl⟩

/-! ### Snapshot reads -/

/-- A commit of `k` after `t` lies at or before `ts`. -/
def Overwritten (s : Sys) (k : Key) (t ts : Timestamp) : Prop :=
  ∃ id ∈ s.commits, ∃ w ∈ s.clients.get id, (w.wrote k).isSome ∧
    ∃ t' ∈ w.phase.committedAt, t < t' ∧ t' ≤ ts

/-- What `r` has read of the keys that `w` has written is `w`'s, but for those overwritten. -/
def SeesAll (s : Sys) (r w : Client) : Prop :=
  ∀ t ∈ w.phase.committedAt, ∀ x ∈ r.reads, ∀ v ∈ w.wrote x.key,
    ¬ Overwritten s x.key t r.txn.timestamp → x.bytes = v.bytes

/-- What `r` has read of the keys that `w` has written was there at first or comes from the
commit of another transaction at or before `r`'s start. -/
def SeesNone (s₀ s : Sys) (r w : Client) : Prop :=
  ∀ x ∈ r.reads, (w.wrote x.key).isSome → x.bytes = readAt s₀.st.eng x.key s₀.clock ∨
    ∃ id ∈ s.commits, id ≠ w.txn.id ∧ ∃ w' ∈ s.clients.get id, ∃ t ∈ w'.phase.committedAt,
      t ≤ r.txn.timestamp ∧ ∃ v ∈ w'.wrote x.key, x.bytes = v.bytes

/-- All reads of one key agree. -/
def Stable (r : Client) : Prop :=
  ∀ x ∈ r.reads, ∀ y ∈ r.reads, x.key = y.key → x.bytes = y.bytes

/-- Every committed transaction is seen on all of its keys or on none. -/
def Atomic (s₀ s : Sys) (r : Client) : Prop :=
  ∀ id ∈ s.commits, ∀ w ∈ s.clients.get id, SeesAll s r w ∨ SeesNone s₀ s r w

instance (s : Sys) (k : Key) (t ts : Timestamp) : Decidable (Overwritten s k t ts) :=
  inferInstanceAs (Decidable (∃ id ∈ s.commits, _))

instance (s : Sys) (r w : Client) : Decidable (SeesAll s r w) :=
  inferInstanceAs (Decidable (∀ t ∈ w.phase.committedAt, _))

instance (s₀ s : Sys) (r w : Client) : Decidable (SeesNone s₀ s r w) :=
  inferInstanceAs (Decidable (∀ x ∈ r.reads, _))

instance (r : Client) : Decidable (Stable r) :=
  inferInstanceAs (Decidable (∀ x ∈ r.reads, _))

instance (s₀ s : Sys) (r : Client) : Decidable (Atomic s₀ s r) :=
  inferInstanceAs (Decidable (∀ id ∈ s.commits, _))

/-- Only user keys are read. -/
def UserReads (s : Sys) : Prop :=
  ∀ id w, s.clients.get id = some w → ∀ x ∈ w.reads, isUserKey x.key

lemma UserReads.step [Backend] {s' : Sys} {a : Act} (hu : UserReads s) (he : Effect s a s') :
    UserReads s' := by
  intro id w' hw'
  rcases he.logs hw' with ⟨hreads, -⟩ | ⟨w, hw, -, hlog⟩
  · simp [hreads]
  cases hlog with
  | same hreads _ => exact hreads ▸ hu id w hw
  | read key r _ _ hkey _ hreads _ =>
    rw [hreads]
    simpa using ⟨hkey, hu id w hw⟩
  | write key v _ hreads _ => exact hreads ▸ hu id w hw

/-- **A transaction whose reads are what the histories have at its start reads a snapshot.** -/
theorem stable_atomic (hi : Init s₀) (hs : Told s) {id : Key} {r : Client}
    (hr : s.clients.get id = some r) (hkey : ∀ x ∈ r.reads, isUserKey x.key)
    (hhist : ∀ k, isUserKey k → ∃ h, Ledger s₀ s k h ∧ r.ReadsFrom k h) :
    Stable r ∧ Atomic s₀ s r := by
  refine ⟨fun x hx y hy hxy => ?_, fun i hi' w hw => ?_⟩
  · obtain ⟨h, -, hfrom⟩ := hhist x.key (hkey x hx)
    obtain ⟨v, hv₁, hbx⟩ := hfrom x hx rfl
    obtain ⟨v', hv₂, hby⟩ := hfrom y hy hxy.symm
    rw [hbx, hby, hv₁.unique hv₂]
  · -- a commit at or before the start is seen, a later one is not
    rcases le_or_gt (w.phase.committedAt.getD .zero) r.txn.timestamp with hle | hlt
    · refine Or.inl fun t ht x hx v hwv hno => ?_
      obtain ⟨h, hv, hfrom⟩ := hhist x.key (hkey x hx)
      obtain ⟨v', hfinds, hb⟩ := hfrom x hx rfl
      have hp := Phase.committedAt_eq.mp ht
      rw [ht] at hle
      have hlast := hv.finds_commit hi (hkey x hx) hs hw hp hwv hle fun j y u hy hpy hyr hu => by
        refine not_lt.mp fun htu => hno ⟨j, (hv.commits j).mpr ⟨y, u, hy, hpy⟩, y, hy, hyr, u, ?_⟩
        exact ⟨Phase.committedAt_eq.mpr hpy, htu, hu⟩
      rw [hb, hfinds.unique hlast]
      rfl
    · refine Or.inr fun x hx hwr => ?_
      obtain ⟨h, hv, hfrom⟩ := hhist x.key (hkey x hx)
      obtain ⟨v', hfinds, hb⟩ := hfrom x hx rfl
      rcases hv.found hi (hkey x hx) (hv.born id r hr).le hfinds with
        h₀ | ⟨j, y, u, v, hy, hpy, hyv, hu, rfl⟩
      · exact Or.inl (hb.trans h₀.symm)
      · have hpu := Phase.committedAt_eq.mpr hpy
        refine Or.inr ⟨j, (hv.commits j).mpr ⟨y, u, hy, hpy⟩, ?_, y, hy, u, hpu, hu, v, hyv, hb⟩
        rintro rfl
        rw [(hs.clients i w hw).id_eq, hw, Option.some.injEq] at hy
        rw [← hy] at hpu
        rw [hpu] at hlt
        exact absurd hu (not_le.mpr hlt)

end Ancestor.Protocol
