import Ancestor.OracleCalls

/-!
Timestamps of different terms: those of an earlier term are below those of a later one when
the save interval is at least two milliseconds and twice the interval is not too large for a
duration.

A master stores no reading that is more than the interval and a millisecond above the time it
saved last. The next master waits for two intervals after that time, so it starts a millisecond
above everything its predecessors have stored or still can store, unless the interval is a
single millisecond.
-/

namespace Ancestor.Oracle

/-! ### The wait of a new master -/

section Wait

variable {T elapsed : Int64}

/-- **The wait lasts for two intervals**; with twice the interval at `2 ^ 63` it never ends. -/
lemma two_mul_le_of_waited (hT : 0 < T.toInt) (hT' : T.toInt ≤ 4611686018427387904)
    (he : 0 < elapsed.toInt) (he' : elapsed.toInt ≤ 9223372036855)
    (h : ¬ 0 < 2 * T - elapsed) : 2 * T.toInt ≤ elapsed.toInt := by
  rw [Int64.lt_iff_toInt_lt, Int64.toInt_sub, Int64.toInt_mul] at h
  change ¬ (0 : Int) < (((2 : Int) * T.toInt).bmod (2 ^ 64) - elapsed.toInt).bmod (2 ^ 64) at h
  rcases hT'.lt_or_eq with hlt | heq
  · have hdouble : ((2 : Int) * T.toInt).bmod (2 ^ 64) = 2 * T.toInt :=
      Int.bmod_eq_of_le (by omega) (by omega)
    rw [hdouble, Int.bmod_eq_of_le (by omega) (by omega)] at h
    omega
  · have hdouble : ((2 : Int) * T.toInt).bmod (2 ^ 64) = -9223372036854775808 := by
      rw [heq]
      decide
    rw [hdouble, ← Int.add_bmod_right, Int.bmod_eq_of_le (by omega) (by omega)] at h
    omega

end Wait

/-! ### What servers have stored, or are about to store -/

/-- A reading the server `s` has stored in term `t`, or stores next. -/
def Issues (κ : Cluster) (s : ServerID) (t : ℕ) (n : Int) : Prop :=
  (∃ obj ∈ κ.objects, obj.server = s ∧ obj.term = t ∧ obj.wallTime.toInt = n) ∨
    ∃ m, (κ.servers s).phase = .storing m ∧ (κ.servers s).term = t ∧ m.toInt = n

/-- The readings `I` are close to what their servers saved last, those of a term are two
intervals above what the servers of earlier terms saved last, and terms are a millisecond
apart. -/
structure Spaced (T : Int64) (servers : ServerID → Server) (I : ServerID → ℕ → Int → Prop) :
    Prop where
  bound : ∀ {s t n}, I s t n → t ≤ (servers s).term ∧
    n < (servers s).lastSavedTime.toInt + (T.toInt + 1) * 1000000
  later : ∀ {s t n}, I s t n → ∀ s', (servers s').term < t →
    (servers s').lastSavedTime.toInt + 2 * T.toInt * 1000000 ≤ n
  order : ∀ {s s' u v n m}, I s u n → I s' v m → u < v → n + 1000000 ≤ m

/-- What the holder of the master key may rely on in each phase. -/
def Holder (T : Int64) (κ : Cluster) (s : ServerID) : Phase → Prop
  | .idle | .elected => True
  | .loading v => v = κ.loadTimestampFromDB
  | .loadPut n => κ.loadTimestampFromDB.toInt + 2 * T.toInt * 1000000 ≤ n.toInt
  | .savePut _ | .storing _ | .serving => κ.saved = some (κ.servers s).lastSavedTime

structure Window (T : Int64) (κ : Cluster) : Prop where
  wf : Wf κ
  holder : ∀ s, κ.master = some s →
    (κ.servers s).term = κ.terms ∧ Holder T κ s (κ.servers s).phase
  saved_ge : ∀ s, 0 ≤ (κ.servers s).lastSavedTime.toInt ∧
    (κ.servers s).lastSavedTime.toInt ≤ κ.loadTimestampFromDB.toInt
  putting : ∀ s n, (κ.servers s).phase = .savePut n →
    (κ.servers s).lastSavedTime.toInt ≤ n.toInt ∧
      ∃ obj ∈ κ.objects, obj.server = s ∧ obj.term = (κ.servers s).term ∧
        obj.wallTime.toInt + 1000000 ≤ n.toInt
  spaced : Spaced T κ.servers (Issues κ)

section Spaced

variable {T : Int64} {servers servers' : ServerID → Server} {I I' : ServerID → ℕ → Int → Prop}

/-- One more reading. -/
lemma Spaced.insert (h : Spaced T servers I) {s : ServerID} {t : ℕ} {n : Int}
    (hI : ∀ s' u m, I' s' u m → I s' u m ∨ s' = s ∧ u = t ∧ m = n)
    (hbound : t ≤ (servers s).term ∧
      n < (servers s).lastSavedTime.toInt + (T.toInt + 1) * 1000000)
    (hlater : ∀ s', (servers s').term < t →
      (servers s').lastSavedTime.toInt + 2 * T.toInt * 1000000 ≤ n)
    (horder : ∀ s' u m, I s' u m → (u < t → m + 1000000 ≤ n) ∧ (t < u → n + 1000000 ≤ m)) :
    Spaced T servers I' where
  bound hi := by
    obtain hi | ⟨rfl, rfl, rfl⟩ := hI _ _ _ hi
    · exact h.bound hi
    · exact hbound
  later hi := by
    obtain hi | ⟨rfl, rfl, rfl⟩ := hI _ _ _ hi
    · exact h.later hi
    · exact hlater
  order hi hj hlt := by
    obtain hi | ⟨rfl, rfl, rfl⟩ := hI _ _ _ hi
    · obtain hj | ⟨rfl, rfl, rfl⟩ := hI _ _ _ hj
      · exact h.order hi hj hlt
      · exact (horder _ _ _ hi).1 hlt
    · obtain hj | ⟨-, rfl, -⟩ := hI _ _ _ hj
      · exact (horder _ _ _ hj).2 hlt
      · omega

lemma Spaced.mono (h : Spaced T servers I) (hI : ∀ s u m, I' s u m → I s u m) :
    Spaced T servers I' where
  bound hi := h.bound (hI _ _ _ hi)
  later hi := h.later (hI _ _ _ hi)
  order hi hj := h.order (hI _ _ _ hi) (hI _ _ _ hj)

/-- Another record for the server `s`, which has moved on. -/
lemma Spaced.update (h : Spaced T servers I) {s : ServerID} {server : Server}
    (hterm : (servers s).term ≤ server.term)
    (hsaved : (servers s).lastSavedTime.toInt ≤ server.lastSavedTime.toInt)
    (hlater : ∀ s' u m, I s' u m → server.term < u →
      server.lastSavedTime.toInt + 2 * T.toInt * 1000000 ≤ m) :
    Spaced T (Function.update servers s server) I where
  bound {s' t n} hi := by
    obtain ⟨ht, hn⟩ := h.bound hi
    by_cases hs : s' = s
    · subst hs
      rw [Function.update_self]
      exact ⟨ht.trans hterm, by omega⟩
    · rw [Function.update_of_ne hs]
      exact ⟨ht, hn⟩
  later {s' t n} hi s'' hlt := by
    by_cases hs : s'' = s
    · subst hs
      rw [Function.update_self] at hlt ⊢
      exact hlater _ _ _ hi hlt
    · rw [Function.update_of_ne hs] at hlt ⊢
      exact h.later hi s'' hlt
  order := h.order

end Spaced

/-! ### Every step keeps the window -/

section Window

variable {T : Int64} {κ κ' : Cluster} {s : ServerID}

/-- The readings after a step of the server `s`. -/
lemma Issues.of_updates {server : Server} {l : List AtomicObject}
    (hup : κ.UpdatesTo s server l κ') {s' : ServerID} {t : ℕ} {n : Int} (h : Issues κ' s' t n) :
    Issues κ s' t n ∨ (∃ obj ∈ l, obj.server = s' ∧ obj.term = t ∧ obj.wallTime.toInt = n) ∨
      s' = s ∧ t = server.term ∧ ∃ m, server.phase = .storing m ∧ n = m.toInt := by
  obtain ⟨obj, hin, hobj⟩ | ⟨m, hm, ht, hn⟩ := h
  · rw [hup.objects] at hin
    rcases List.mem_append.mp hin with hin | hin
    · exact .inl (.inl ⟨obj, hin, hobj⟩)
    · exact .inr (.inl ⟨obj, hin, hobj⟩)
  · by_cases hs : s' = s
    · subst hs
      rw [hup.self] at hm ht
      exact .inr (.inr ⟨rfl, ht.symm, m, hm, hn.symm⟩)
    · rw [hup.of_ne hs] at hm ht
      exact .inl (.inr ⟨m, hm, ht, hn⟩)

lemma Holder.congr {phase : Phase} (h : Holder T κ s phase) (hsaved : κ'.saved = κ.saved)
    (hlast : (κ'.servers s).lastSavedTime = (κ.servers s).lastSavedTime) :
    Holder T κ' s phase := by
  have hload : κ'.loadTimestampFromDB = κ.loadTimestampFromDB := by
    rw [Cluster.loadTimestampFromDB, hsaved, Cluster.loadTimestampFromDB]
  cases phase with
  | idle | elected => trivial
  | loading v => exact Eq.trans h hload.symm
  | loadPut n =>
    rw [Holder, hload]
    exact h
  | savePut n | storing n | serving => exact hsaved.trans (hlast ▸ h)

/-- What a server does to itself keeps the window when its own part of it is kept. -/
lemma Window.updates {server : Server} {l : List AtomicObject}
    (hup : κ.UpdatesTo s server l κ') (h : Window T κ) (hwf : Wf κ')
    (hother : ∀ s', s' ≠ s → κ'.master = some s' →
      κ.master = some s' ∧ κ'.saved = κ.saved ∧ κ'.terms = κ.terms)
    (hown : κ'.master = some s → server.term = κ'.terms ∧ Holder T κ' s server.phase)
    (hload : κ.loadTimestampFromDB.toInt ≤ κ'.loadTimestampFromDB.toInt)
    (hlast : 0 ≤ server.lastSavedTime.toInt ∧
      server.lastSavedTime.toInt ≤ κ'.loadTimestampFromDB.toInt)
    (hput : ∀ n, server.phase = .savePut n → server.lastSavedTime.toInt ≤ n.toInt ∧
      ∃ obj ∈ κ'.objects, obj.server = s ∧ obj.term = server.term ∧
        obj.wallTime.toInt + 1000000 ≤ n.toInt)
    (hspaced : Spaced T κ'.servers (Issues κ')) : Window T κ' where
  wf := hwf
  holder s' hs' := by
    by_cases hs : s' = s
    · subst hs
      rw [hup.self]
      exact hown hs'
    · obtain ⟨hm, hsaved, hterms⟩ := hother s' hs hs'
      obtain ⟨hterm, hholder⟩ := h.holder s' hm
      rw [hup.of_ne hs]
      exact ⟨hterm.trans hterms.symm,
        hholder.congr hsaved (congrArg Server.lastSavedTime (hup.of_ne hs))⟩
  saved_ge s' := by
    by_cases hs : s' = s
    · subst hs
      rw [hup.self]
      exact hlast
    · rw [hup.of_ne hs]
      exact ⟨(h.saved_ge s').1, (h.saved_ge s').2.trans hload⟩
  putting s' n hp := by
    by_cases hs : s' = s
    · subst hs
      rw [hup.self] at hp ⊢
      exact hput n hp
    · rw [hup.of_ne hs] at hp ⊢
      obtain ⟨hle, obj, hin, hobj⟩ := h.putting s' n hp
      exact ⟨hle, obj, hup.objects ▸ List.mem_append_left l hin, hobj⟩
  spaced := hspaced

lemma Window.terms_ge (h : Window T κ) {t : ℕ} {n : Int} (hi : Issues κ s t n) : t ≤ κ.terms :=
  (h.spaced.bound hi).1.trans (h.wf.term_le s)

lemma loadTimestampFromDB_le (h : Wf κ) :
    κ.loadTimestampFromDB = 0 ∨ 0 < κ.loadTimestampFromDB.toInt ∧
      κ.loadTimestampFromDB.toInt ≤ κ.now.toInt := by
  unfold Cluster.loadTimestampFromDB
  cases hs : κ.saved with
  | none => exact .inl rfl
  | some v => exact .inr (h.saved v hs)

/-- The object a serving server holds is one of its term. -/
lemma Wf.current_mem (h : Wf κ) (hp : (κ.servers s).phase = .serving) {prev : AtomicObject}
    (hprev : κ.current s = some prev) :
    prev ∈ κ.objects ∧ prev.server = s ∧ prev.term = (κ.servers s).term := by
  have hs := h.sound s
  rw [hp] at hs
  obtain ⟨obj, hc, hin, hserver, hterm, -⟩ := hs
  obtain rfl : obj = prev := Option.some_inj.mp (hc.symm.trans hprev)
  exact ⟨hin, hserver, hterm⟩

/-- What is a millisecond above an object of the term is above all earlier terms, and two
intervals above what their servers saved. -/
lemma Window.above_prev (h : Window T κ) {prev : AtomicObject} (hin : prev ∈ κ.objects)
    (hserver : prev.server = s) (hterm : prev.term = (κ.servers s).term) {n : Int}
    (hn : prev.wallTime.toInt + 1000000 ≤ n) :
    (∀ s', (κ.servers s').term < (κ.servers s).term →
      (κ.servers s').lastSavedTime.toInt + 2 * T.toInt * 1000000 ≤ n) ∧
    ∀ s' u m, Issues κ s' u m → u < (κ.servers s).term → m + 1000000 ≤ n := by
  have hprev : Issues κ s (κ.servers s).term prev.wallTime.toInt :=
    .inl ⟨prev, hin, hserver, hterm, rfl⟩
  refine ⟨fun s' hlt => ?_, fun s' u m hi hlt => ?_⟩
  · have hle := h.spaced.later hprev s' hlt
    omega
  · have hle := h.spaced.order hi hprev hlt
    omega

lemma Window.tick (h : Window T κ) {now : Int64} (hle : κ.now ≤ now) :
    Window T { κ with now } where
  wf := h.wf.tick hle
  holder s hs := ⟨(h.holder s hs).1, (h.holder s hs).2.congr rfl rfl⟩
  saved_ge := h.saved_ge
  putting := h.putting
  spaced := h.spaced

lemma Window.expire (h : Window T κ) : Window T { κ with master := none } where
  wf := h.wf.expire
  holder _ hs := by cases hs
  saved_ge := h.saved_ge
  putting := h.putting
  spaced := h.spaced

lemma Window.elect (h : Window T κ) (hidle : (κ.servers s).phase = .idle)
    (hfree : κ.master = none ∨ κ.master = some s) : Window T (κ.elect s) := by
  have hup := Cluster.UpdatesTo.elect κ s
  refine h.updates hup (h.wf.step (T := T) (.campaign hidle hfree))
    (fun s' hs hm => absurd (Option.some_inj.mp hm).symm hs) (fun _ => ⟨rfl, trivial⟩) le_rfl
    (h.saved_ge s) (fun n hn => by cases hn) ?_
  have hsp : Spaced T (κ.elect s).servers (Issues κ) := by
    refine h.spaced.update ((h.wf.term_le s).trans (Nat.le_succ _)) le_rfl
      fun s' u m hi hlt => ?_
    have hle := h.terms_ge hi
    have hlt' : κ.terms + 1 < u := hlt
    omega
  refine hsp.mono fun s' u m hi => ?_
  obtain hi | ⟨obj, hin, -⟩ | ⟨-, -, n, hn, -⟩ := hi.of_updates hup
  · exact hi
  · cases hin
  · cases hn

/-- What the holder of the key may rely on after a turn of its own. -/
lemma Window.holder_turn (h : Window T κ) (hT : 0 < T.toInt) (hT' : T.toInt ≤ 4611686018427387904)
    {phase : Phase} (hturn : Turn T κ s phase) (hs : κ.master = some s) : Holder T κ s phase := by
  have hholder := (h.holder s hs).2
  cases hturn with
  | leave => trivial
  | read hp => rfl
  | wait hp | stay hp =>
    rw [hp] at hholder
    exact hholder
  | save hp hprev hpos hdue | renew hp hprev hpos hdue =>
    rw [hp] at hholder
    exact hholder
  | @load v hp hpos hwait =>
    rw [hp] at hholder
    obtain rfl : v = κ.loadTimestampFromDB := hholder
    have hsub : (κ.now - κ.loadTimestampFromDB).toInt =
        κ.now.toInt - κ.loadTimestampFromDB.toInt := by
      rcases loadTimestampFromDB_le h.wf with h0 | ⟨h0, hle⟩
      · rw [h0, Int64.sub_zero]
        exact (Int.sub_zero _).symm
      · exact toInt_sub_of_le h0.le hle
    have hmillis := (millis_pos_iff _).mp hpos
    have hlt := Int64.toInt_lt (κ.now - κ.loadTimestampFromDB)
    have heq := millis_of_nonneg (d := κ.now - κ.loadTimestampFromDB) (by omega)
    have hwaited := two_mul_le_of_waited hT hT' (by omega) (by omega) hwait
    show κ.loadTimestampFromDB.toInt + 2 * T.toInt * 1000000 ≤ κ.now.toInt
    omega

/-- The clock has passed what a serving server saved last, and its object. -/
lemma Window.now_ge (h : Window T κ) (hp : (κ.servers s).phase = .serving) {prev : AtomicObject}
    (hprev : κ.current s = some prev) :
    0 < prev.wallTime.toInt ∧ prev.wallTime.toInt ≤ κ.now.toInt ∧
      (κ.servers s).lastSavedTime.toInt ≤ κ.now.toInt := by
  obtain ⟨hpos, hle, -⟩ := h.wf.object prev (h.wf.current_mem hp hprev).1
  refine ⟨hpos, hle, ?_⟩
  have hsaved := (h.saved_ge s).2
  rcases loadTimestampFromDB_le h.wf with h0 | ⟨-, hnow⟩
  · rw [h0] at hsaved
    exact hsaved.trans (hpos.le.trans hle)
  · exact hsaved.trans hnow

lemma Window.spaced_turn (h : Window T κ) (hT : 2 ≤ T.toInt) {phase : Phase}
    (hturn : Turn T κ s phase) : Spaced T κ.servers (Issues (κ.setPhase s phase)) := by
  have hup := Cluster.UpdatesTo.setPhase κ s phase
  cases hturn with
  | @renew prev hp hprev hpos hdue =>
    obtain ⟨hin, hserver, hterm⟩ := h.wf.current_mem hp hprev
    obtain ⟨hwall, hnow, hsaved⟩ := h.now_ge hp hprev
    rw [millis_pos_iff, toInt_timeSub hwall.le hnow] at hpos
    have hsub := toInt_timeSub (h.saved_ge s).1 hsaved
    have hnear : κ.now.toInt < (κ.servers s).lastSavedTime.toInt + (T.toInt + 1) * 1000000 := by
      rw [Int64.le_iff_toInt_le, millis_of_nonneg (by omega), hsub] at hdue
      omega
    obtain ⟨hlater, hbelow⟩ := h.above_prev hin hserver hterm (n := κ.now.toInt) (by omega)
    refine h.spaced.insert (s := s) (t := (κ.servers s).term) (n := κ.now.toInt)
      (fun s' u m hi => ?_) ⟨le_rfl, hnear⟩ hlater
      fun s' u m hi => ⟨hbelow s' u m hi, fun hlt => ?_⟩
    · obtain hi | ⟨obj, hin, -⟩ | ⟨hs, ht, m', hm', hn⟩ := hi.of_updates hup
      · exact .inl hi
      · cases hin
      · cases hm'
        exact .inr ⟨hs, ht, hn⟩
    · -- a later term started two intervals above what this server saved last
      have hle := h.spaced.later hi s hlt
      omega
  | _ =>
    refine h.spaced.mono fun s' u m hi => ?_
    obtain hi | ⟨obj, hin, -⟩ | ⟨-, -, m', hm', -⟩ := hi.of_updates hup
    · exact hi
    · cases hin
    · cases hm'

lemma Window.turn (h : Window T κ) (hT : 2 ≤ T.toInt) (hT' : T.toInt ≤ 4611686018427387904)
    {phase : Phase} (hturn : Turn T κ s phase) : Window T (κ.setPhase s phase) := by
  have hsp := h.spaced_turn hT hturn
  refine h.updates (.setPhase κ s phase) (h.wf.step (.turn hturn))
    (fun s' hs hm => ⟨hm, rfl, rfl⟩)
    (fun hm => ⟨(h.holder s hm).1, (h.holder_turn (by omega) hT' hturn hm).congr rfl ?_⟩) le_rfl
    (h.saved_ge s) (fun n hn => ?_)
    (hsp.update le_rfl le_rfl fun s' u m hi hlt => hsp.later hi s hlt)
  · rw [setPhase_lastSavedTime]
  · obtain rfl : phase = .savePut n := hn
    cases hturn with
    | @save prev hp hprev hpos hdue =>
      obtain ⟨hin, hserver, hterm⟩ := h.wf.current_mem hp hprev
      obtain ⟨hwall, hnow, hsaved⟩ := h.now_ge hp hprev
      rw [millis_pos_iff, toInt_timeSub hwall.le hnow] at hpos
      exact ⟨hsaved, prev, hin, hserver, hterm, by omega⟩

/-- A time that gets saved is above what all servers saved, and above the earlier terms. -/
lemma Window.above_put (h : Window T κ) (hT : 2 ≤ T.toInt) {n : Int64}
    (hphase : (κ.servers s).phase = .loadPut n ∨ (κ.servers s).phase = .savePut n)
    (hmaster : κ.master = some s) :
    κ.loadTimestampFromDB.toInt ≤ n.toInt ∧
    (∀ s', (κ.servers s').term < (κ.servers s).term →
      (κ.servers s').lastSavedTime.toInt + 2 * T.toInt * 1000000 ≤ n.toInt) ∧
    ∀ s' u m, Issues κ s' u m → u < (κ.servers s).term → m + 1000000 ≤ n.toInt := by
  have hholder := (h.holder s hmaster).2
  rcases hphase with hp | hp
  · rw [hp] at hholder
    change κ.loadTimestampFromDB.toInt + 2 * T.toInt * 1000000 ≤ n.toInt at hholder
    refine ⟨by omega, fun s' _ => ?_, fun s' u m hi _ => ?_⟩
    · have hle := (h.saved_ge s').2
      omega
    · have hle := (h.saved_ge s').2
      have hlt := (h.spaced.bound hi).2
      omega
  · obtain ⟨hle, obj, hin, hserver, hterm, hobj⟩ := h.putting s n hp
    rw [hp] at hholder
    have hload : κ.loadTimestampFromDB = (κ.servers s).lastSavedTime := by
      rw [Cluster.loadTimestampFromDB, hholder, Option.getD_some]
    exact ⟨hload ▸ hle, h.above_prev hin hserver hterm hobj⟩

lemma Window.saveTime (h : Window T κ) (hT : 2 ≤ T.toInt) {n : Int64}
    (hphase : (κ.servers s).phase = .loadPut n ∨ (κ.servers s).phase = .savePut n)
    (hmaster : κ.master = some s) : Window T (κ.saveTime s n) := by
  have hup := Cluster.UpdatesTo.saveTime κ s n
  have hterm := (h.holder s hmaster).1
  obtain ⟨hge, hlater, hbelow⟩ := h.above_put hT hphase hmaster
  have hlast := h.saved_ge s
  have hother : ∀ s', s' ≠ s → (κ.saveTime s n).master ≠ some s' := by
    intro s' hs hm
    exact hs (Option.some_inj.mp (hm.symm.trans hmaster))
  refine h.updates hup (h.wf.step (T := T) (.put hphase hmaster))
    (fun s' hs hm => absurd hm (hother s' hs)) (fun _ => ⟨hterm, ?_⟩) hge
    ⟨by show 0 ≤ n.toInt; omega, le_rfl⟩ (fun m hm => by cases hm) ?_
  · rw [Holder, hup.self]
    rfl
  · -- no term is later than that of the key's holder
    have hmax : ∀ s' u m, Issues κ s' u m → ¬ (κ.servers s).term < u := by
      intro s' u m hi
      have hle := h.terms_ge hi
      omega
    have hsp : Spaced T (κ.saveTime s n).servers (Issues κ) :=
      h.spaced.update le_rfl (hlast.2.trans hge) fun s' u m hi hlt => absurd hlt (hmax s' u m hi)
    refine hsp.insert (s := s) (t := (κ.servers s).term) (n := n.toInt) (fun s' u m hi => ?_)
      ?_ (fun s' hlt => ?_)
      fun s' u m hi => ⟨hbelow s' u m hi, fun hlt => absurd hlt (hmax s' u m hi)⟩
    · obtain hi | ⟨obj, hin, -⟩ | ⟨hs, ht, m', hm', hn⟩ := hi.of_updates hup
      · exact .inl hi
      · cases hin
      · cases hm'
        exact .inr ⟨hs, ht, hn⟩
    · rw [hup.self]
      exact ⟨le_rfl, by show n.toInt < n.toInt + _; omega⟩
    · by_cases hs : s' = s
      · subst hs
        rw [hup.self] at hlt
        exact absurd hlt (lt_irrefl _)
      · rw [hup.of_ne hs] at hlt ⊢
        exact hlater s' hlt

lemma Window.storeObject (h : Window T κ) {n : Int64} (hphase : (κ.servers s).phase = .storing n) :
    Window T (κ.storeObject s n) := by
  have hup := Cluster.UpdatesTo.storeObject κ s n
  refine h.updates hup (h.wf.step (T := T) (.store hphase)) (fun s' hs hm => ⟨hm, rfl, rfl⟩)
    (fun hm => ⟨(h.holder s hm).1, ?_⟩) le_rfl (h.saved_ge s) (fun n hn => by cases hn) ?_
  · have hholder := (h.holder s hm).2
    rw [hphase] at hholder
    rw [Holder, hup.self]
    exact hholder
  · have hsp : Spaced T (κ.storeObject s n).servers (Issues κ) :=
      h.spaced.update le_rfl le_rfl fun s' u m hi hlt => h.spaced.later hi s hlt
    refine hsp.mono fun s' u m hi => ?_
    obtain hi | ⟨obj, hin, hserver, hterm, hwall⟩ | ⟨-, -, m', hm', -⟩ := hi.of_updates hup
    · exact hi
    · obtain rfl := List.mem_singleton.mp hin
      subst hserver
      exact .inr ⟨n, hphase, hterm, hwall⟩
    · cases hm'

/-- **Every step keeps the window.** -/
theorem Window.step (h : Window T κ) (hT : 2 ≤ T.toInt) (hT' : T.toInt ≤ 4611686018427387904)
    (hstep : Effect T κ κ') : Window T κ' := by
  cases hstep with
  | tick hle => exact h.tick hle
  | expire => exact h.expire
  | campaign hidle hfree => exact h.elect hidle hfree
  | turn hturn => exact h.turn hT hT' hturn
  | put hphase hmaster => exact h.saveTime hT hphase hmaster
  | store hphase => exact h.storeObject hphase

lemma window_init (T : Int64) : Window T init.cluster where
  wf := wf_init
  holder _ h := by cases h
  saved_ge _ := ⟨le_rfl, le_rfl⟩
  putting _ _ h := by cases h
  spaced := by
    have hno : ∀ s t n, ¬ Issues init.cluster s t n := by
      rintro s t n (⟨obj, hin, -⟩ | ⟨m, hm, -⟩)
      · cases hin
      · cases hm
    exact ⟨fun hi => absurd hi (hno _ _ _), fun hi => absurd hi (hno _ _ _),
      fun hi => absurd hi (hno _ _ _)⟩

end Window

/-! ### The answers of different terms -/

/-- Every answer of an earlier term is less than every answer of a later one. -/
def Increasing (σ : State) : Prop :=
  ∀ i j s s' cur cur' ts ts' m m' u v, σ.At i s (.done cur ts m) → σ.At j s' (.done cur' ts' m') →
    σ.termOf cur = some u → σ.termOf cur' = some v → u < v → ts.less ts' = true

/-- The answers show the wall time of their objects. -/
def Answered (σ : State) : Prop :=
  ∀ i s cur ts m, σ.At i s (.done cur ts m) →
    ∃ obj, σ.cluster.objects[cur]? = some obj ∧ ts.wallTime = millis obj.wallTime

section Answered

variable {T : Int64} {σ σ' : State}

lemma Answered.stepCall (h : Answered σ) {a : CallAction} (hstep : CallEffect σ a σ') :
    Answered σ' := by
  intro i s cur ts m hi
  cases hstep with
  | start s' => exact h i s cur ts m ((hi.of_append rfl).resolve_right (by simp))
  | miss hc hstate =>
    obtain ⟨-, -, heq⟩ | ⟨-, hi⟩ := State.At.of_set hc rfl hi
    · rcases hstate with rfl | rfl <;> cases heq
    · exact h i s cur ts m hi
  | load hc hts =>
    obtain ⟨-, -, heq⟩ | ⟨-, hi⟩ := State.At.of_set hc rfl hi
    · cases heq
    · exact h i s cur ts m hi
  | @add c s' i' cur' obj state hc hobj hstate =>
    obtain ⟨-, -, heq⟩ | ⟨-, hi⟩ := State.At.of_set (σ := σ) hc rfl hi
    · rcases hstate with rfl | rfl
      · cases heq
      · cases heq
        exact ⟨obj, hobj, rfl⟩
    · exact h i s cur ts m hi

lemma window_step (hT : 2 ≤ T.toInt) (hT' : T.toInt ≤ 4611686018427387904) {a : Action}
    (h : Window T σ.cluster ∧ Answered σ) (hstep : σ.step T a = some σ') :
    Window T σ'.cluster ∧ Answered σ' := by
  cases a with
  | master a =>
    obtain ⟨κ', hκ, rfl⟩ := Option.map_eq_some_iff.mp hstep
    have heff := step_effect hκ
    refine ⟨h.1.step hT hT' heff, fun i s cur ts m hi => ?_⟩
    obtain ⟨obj, hget, hwall⟩ := h.2 i s cur ts m hi
    exact ⟨obj, heff.getElem? hget, hwall⟩
  | call a =>
    have heff := stepCall_effect hstep
    have hcluster : σ'.cluster = σ.cluster := by cases heff <;> rfl
    exact ⟨hcluster ▸ h.1, h.2.stepCall heff⟩

lemma Window.increasing (h : Window T σ.cluster) (ha : Answered σ) : Increasing σ := by
  intro i j s s' cur cur' ts ts' m m' u v hi hj hu hv hlt
  obtain ⟨obj, hget, hwall⟩ := ha _ _ _ _ _ hi
  obtain ⟨obj', hget', hwall'⟩ := ha _ _ _ _ _ hj
  rw [State.termOf, hget, Option.map_some, Option.some_inj] at hu
  rw [State.termOf, hget', Option.map_some, Option.some_inj] at hv
  have hin := List.mem_of_getElem? hget
  have horder := h.spaced.order (.inl ⟨obj, hin, rfl, hu, rfl⟩)
    (.inl ⟨obj', List.mem_of_getElem? hget', rfl, hv, rfl⟩) hlt
  have hms := Oracle.millis_lt (h.wf.object obj hin).1 horder
  rw [← hwall, ← hwall'] at hms
  exact less_of_wallTime_lt hms

end Answered

/-- The first master is deposed right after it has saved its time, and goes on serving. -/
def deposed (t₀ t₁ t₂ : Int64) : List Action :=
  [.master (.tick t₀), .master (.campaign 0), .master (.loadTimestampFromDB 0),
    .master (.loadTimestamp 0), .master (.saveTimestampToDB 0), .master (.store 0),
    .master .expire, .master (.campaign 1), .master (.loadTimestampFromDB 1),
    .master (.tick t₁), .master (.saveTimestamp 0), .master (.store 0),
    .master (.tick t₂), .master (.loadTimestamp 1), .master (.saveTimestampToDB 1),
    .master (.store 1),
    .call (.start 0), .call (.load 0), .call (.add 0),
    .call (.start 1), .call (.load 1), .call (.add 1)]

/-- What a run shows to its callers, and the terms of its objects. -/
def State.shown (σ : State) : List Call × List ℕ :=
  (σ.calls, σ.cluster.objects.map (·.term))

/-- The deposed master and its successor have given the same answer. -/
def sameAnswer (ts : Timestamp) : List Call × List ℕ :=
  ([⟨0, .done 1 ts 1⟩, ⟨1, .done 2 ts 2⟩], [1, 1, 2])

lemma not_increasing_of_shown {σ : State} {ts : Timestamp} (h : σ.shown = sameAnswer ts) :
    ¬ Increasing σ := by
  intro hinc
  have hcalls : σ.calls = [⟨0, .done 1 ts 1⟩, ⟨1, .done 2 ts 2⟩] := congrArg Prod.fst h
  have hterms : σ.cluster.objects.map (·.term) = [1, 1, 2] := congrArg Prod.snd h
  have hless := hinc 0 1 0 1 1 2 ts ts 1 2 1 2 (by rw [State.At, hcalls]; rfl)
    (by rw [State.At, hcalls]; rfl) (by rw [State.termOf, ← List.getElem?_map, hterms]; rfl)
    (by rw [State.termOf, ← List.getElem?_map, hterms]; rfl) (by decide)
  exact lt_irrefl ts ((Timestamp.less_iff ts ts).mp hless)

/-- With an interval of one millisecond the successor may start in the millisecond the deposed
master has reached. -/
lemma deposed_boundary :
    (Steps.run (State.step 1) init
      (deposed 1700000000000500000 1700000000002400000 1700000000002500000)).map State.shown =
      some (sameAnswer ⟨1700000000002, 1⟩) := by decide +kernel

/-! Twice an interval above `2 ^ 62` is negative, so a new master does not wait at all. -/

section Overflow

variable {T T' : Int64}

/-- The time since the last save, in the actions that compare it with the interval. -/
def State.elapsed (σ : State) : Action → List Int64
  | .master (.loadTimestamp s) =>
    match (σ.cluster.servers s).phase with
    | .loading v => [millis (σ.cluster.now - v)]
    | _ => []
  | .master (.saveTimestamp s) =>
    [millis (timeSub σ.cluster.now (σ.cluster.servers s).lastSavedTime)]
  | _ => []

def OneMilli (σ : State) (a : Action) : Bool := (σ.elapsed a).all fun e => e = 1

lemma not_wait (hT : 4611686018427387904 < T.toInt) : ¬ 2 * T - 1 > 0 := by
  have hlt := Int64.toInt_lt T
  rw [gt_iff_lt, Int64.lt_iff_toInt_lt, Int64.toInt_sub, Int64.toInt_mul]
  change ¬ (0 : Int) < (((2 : Int) * T.toInt).bmod (2 ^ 64) - 1).bmod (2 ^ 64)
  have hdouble : ((2 : Int) * T.toInt).bmod (2 ^ 64) = 2 * T.toInt - 2 ^ 64 := by
    have hwrap := Int.add_bmod_right (2 * T.toInt - 2 ^ 64) (2 ^ 64)
    rw [show 2 * T.toInt - 2 ^ 64 + ((2 ^ 64 : ℕ) : Int) = 2 * T.toInt by omega] at hwrap
    rw [hwrap]
    exact Int.bmod_eq_of_le (by omega) (by omega)
  rw [hdouble, Int.bmod_eq_of_le (by omega) (by omega)]
  omega

lemma not_due (hT : 4611686018427387904 < T.toInt) : ¬ (1 : Int64) > T := by
  rw [gt_iff_lt, Int64.lt_iff_toInt_lt]
  show ¬ T.toInt < 1
  omega

/-- Such intervals decide alike as long as one millisecond has passed. -/
lemma step_oneMilli (hT : 4611686018427387904 < T.toInt) (hT' : 4611686018427387904 < T'.toInt)
    (σ : State) (a : Action) (h : OneMilli σ a = true) : σ.step T' a = σ.step T a := by
  have h : ∀ e ∈ σ.elapsed a, e = 1 := by simpa [OneMilli] using h
  rcases a with a | a
  · cases a with
    | loadTimestamp s =>
      simp only [State.step, Cluster.step]
      split
      · rename_i v hp
        have he : millis (σ.cluster.now - v) = 1 := h _ (by simp [State.elapsed, hp])
        rw [loadTurn, loadTurn, he, if_neg (not_wait hT), if_neg (not_wait hT')]
      · rfl
    | saveTimestamp s =>
      have he : millis (timeSub σ.cluster.now (σ.cluster.servers s).lastSavedTime) = 1 :=
        h _ (by simp [State.elapsed])
      simp only [State.step, Cluster.step, saveTurn, he, if_neg (not_due hT),
        if_neg (not_due hT')]
    | _ => rfl
  · rfl

lemma deposed_overflow (hT : 4611686018427387904 < T.toInt) :
    (Steps.run (State.step T) init (deposed 1000000 2000000 2000000)).map State.shown =
      some (sameAnswer ⟨2, 1⟩) := by
  have halong : Steps.Along (State.step 4611686018427387905) (fun σ a => OneMilli σ a = true) init
      (deposed 1000000 2000000 2000000) := by decide +kernel
  rw [Steps.run_congr (fun σ a => step_oneMilli (by decide +kernel) hT σ a) halong]
  decide +kernel

end Overflow

/-- **Timestamps increase across terms** exactly when the interval is at least two milliseconds
and at most `2 ^ 62`. -/
theorem terms_increasing_iff (T : Int64) (hT : 0 < T) :
    (∀ l σ, Steps.run (State.step T) init l = some σ → Increasing σ) ↔
      2 ≤ T ∧ T.toInt ≤ 2 ^ 62 := by
  have hpos : 0 < T.toInt := Int64.lt_iff_toInt_lt.mp hT
  have htwo : 2 ≤ T ↔ 2 ≤ T.toInt := Int64.le_iff_toInt_le
  rw [htwo]
  constructor
  · intro h
    have hrefuted : ∀ {l ts}, (Steps.run (State.step T) init l).map State.shown ≠
        some (sameAnswer ts) := by
      intro l ts hl
      obtain ⟨σ, hrun, hσ⟩ := Option.map_eq_some_iff.mp hl
      exact not_increasing_of_shown hσ (h l σ hrun)
    refine ⟨?_, ?_⟩
    · by_contra hlt
      obtain rfl : T = 1 := Int64.toInt_inj.mp (show T.toInt = 1 by omega)
      exact hrefuted deposed_boundary
    · by_contra hgt
      exact hrefuted (deposed_overflow (by omega))
  · rintro ⟨hge, hle⟩ l σ hrun
    have h : Window T σ.cluster ∧ Answered σ :=
      Steps.invariant (C := fun _ _ => True)
        (fun _ _ _ h _ hs => window_step hge (by omega) h hs)
        ⟨window_init T, fun _ _ _ _ _ hi => by cases hi⟩
        (Steps.along_of_forall (fun _ _ => trivial) _ _) hrun
    exact h.1.increasing h.2

/-- The interval the servers default to is large enough. -/
theorem terms_increasing_iff_default :
    (0 : Int64) < 2000 ∧
      ∀ l σ, Steps.run (State.step 2000) init l = some σ → Increasing σ :=
  ⟨by decide, (terms_increasing_iff 2000 (by decide)).mpr (by decide +kernel)⟩

/-- Servers with an interval of one millisecond: the deposed master and its successor give the
same timestamp. -/
theorem terms_collide :
    ∃ σ, Steps.run (State.step 1) init
        (deposed 1700000000000500000 1700000000002400000 1700000000002500000) = some σ ∧
      σ.shown = sameAnswer ⟨1700000000002, 1⟩ ∧ ¬ Increasing σ := by
  obtain ⟨σ, hrun, hσ⟩ := Option.map_eq_some_iff.mp deposed_boundary
  exact ⟨σ, hrun, hσ, not_increasing_of_shown hσ⟩

end Ancestor.Oracle
