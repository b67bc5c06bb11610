import Mathlib

/-!
Linearizable histories.

A history is the calls and the returns that the users of an object see. It is linearizable if the
operations can be put in an order, one after the other, in which the object gives the answers that
were returned, and which keeps an operation that had returned before another one was called in
front of it. Operations that have not returned may have their place in the order or not.

The rules are those of linearization points: the order grows at its end, when an operation takes
effect, between its call and its return.
-/

universe u

namespace Linear

variable {C O R S : Type u}

inductive Event (C O R : Type u)
  | call (c : C) (op : O)
  | ret (c : C) (r : R)
  deriving DecidableEq, Repr

/-- What an operation answers in a state, and the state it leaves. -/
structure Object (S O R : Type u) where
  init : S
  step : S → O → R × S

namespace Object

variable (obj : Object S O R)

/-- The state after operations in turn. -/
def after (l : List (C × O)) : S := l.foldl (fun s x => (obj.step s x.2).2) obj.init

lemma after_snoc (l : List (C × O)) (x : C × O) :
    obj.after (l ++ [x]) = (obj.step (obj.after l) x.2).2 := by
  simp [after]

end Object

/-- `a` stands before `b`. -/
def Before {α : Type u} (l : List α) (a b : α) : Prop := ∃ l₁ l₂, l = l₁ ++ l₂ ∧ a ∈ l₁ ∧ b ∈ l₂

section Before

variable {α : Type u} {l l' : List α} {a b x : α}

lemma Before.append (h : Before l a b) (l' : List α) : Before (l ++ l') a b := by
  obtain ⟨l₁, l₂, rfl, ha, hb⟩ := h
  exact ⟨l₁, l₂ ++ l', List.append_assoc _ _ _, ha, List.mem_append_left _ hb⟩

/-- Only the last element can be new on the right. -/
lemma before_snoc (h : Before (l ++ [x]) a b) : Before l a b ∨ a ∈ l ∧ b = x := by
  obtain ⟨l₁, l₂, heq, ha, hb⟩ := h
  cases l₂ using List.reverseRecOn with
  | nil => cases hb
  | append_singleton l₂ y =>
    rw [← List.append_assoc] at heq
    obtain ⟨rfl, hy⟩ := List.append_inj' heq rfl
    obtain rfl : x = y := by simpa using hy
    rcases List.mem_append.mp hb with hb | hb
    · exact .inl ⟨l₁, l₂, rfl, ha, hb⟩
    · exact .inr ⟨List.mem_append_left _ ha, List.mem_singleton.mp hb⟩

lemma before_of_mem (h : a ∈ l) : Before (l ++ [x]) a x :=
  ⟨l, [x], rfl, h, List.mem_singleton_self x⟩

end Before

/-- The order `l` explains the history `h`. -/
structure Linearizes (obj : Object S O R) (h : List (Event C O R)) (l : List (C × O)) : Prop where
  nodup : (l.map Prod.fst).Nodup
  called : ∀ c op, (c, op) ∈ l → .call c op ∈ h
  answered : ∀ c r, .ret c r ∈ h →
    ∃ l₁ op l₂, l = l₁ ++ (c, op) :: l₂ ∧ r = (obj.step (obj.after l₁) op).1
  order : ∀ c r d op, Before h (.ret c r) (.call d op) → (d, op) ∈ l → Before (l.map Prod.fst) c d

def Linearizable (obj : Object S O R) (h : List (Event C O R)) : Prop := ∃ l, Linearizes obj h l

namespace Linearizes

variable {obj : Object S O R} {h : List (Event C O R)} {l : List (C × O)} {c : C} {op : O} {r : R}

lemma nil : Linearizes obj ([] : List (Event C O R)) [] where
  nodup := List.nodup_nil
  called := fun _ _ hmem => by cases hmem
  answered := fun _ _ hmem => by cases hmem
  order := fun _ _ _ _ _ hmem => by cases hmem

/-- Every operation that has returned is in the order. -/
lemma mem_of_ret (hl : Linearizes obj h l) (hret : .ret c r ∈ h) : c ∈ l.map Prod.fst := by
  obtain ⟨l₁, op, l₂, rfl, -⟩ := hl.answered c r hret
  simp

/-- A new call has no place in the order yet. -/
lemma call (hl : Linearizes obj h l) (hnew : ∀ op, .call c op ∉ h) :
    Linearizes obj (h ++ [.call c op]) l where
  nodup := hl.nodup
  called := fun d op' hmem => List.mem_append_left _ (hl.called d op' hmem)
  answered := fun d r hret => by
    rcases List.mem_append.mp hret with hret | hret
    · exact hl.answered d r hret
    · cases List.mem_singleton.mp hret
  order := fun d r e op' hbefore hmem => by
    rcases before_snoc hbefore with hbefore | ⟨-, heq⟩
    · exact hl.order d r e op' hbefore hmem
    · cases heq
      exact absurd (hl.called _ _ hmem) (hnew op)

/-- **The linearization point**: an operation that was called takes effect. -/
lemma effect (hl : Linearizes obj h l) (hcall : .call c op ∈ h) (hnew : c ∉ l.map Prod.fst) :
    Linearizes obj h (l ++ [(c, op)]) where
  nodup := by
    rw [List.map_append, List.map_singleton]
    refine List.nodup_append.mpr ⟨hl.nodup, List.nodup_singleton c, ?_⟩
    rintro a ha b hb rfl
    obtain rfl : a = c := List.mem_singleton.mp hb
    exact hnew ha
  called := fun d op' hmem => by
    rcases List.mem_append.mp hmem with hmem | hmem
    · exact hl.called d op' hmem
    · cases List.mem_singleton.mp hmem
      exact hcall
  answered := fun d r hret => by
    obtain ⟨l₁, op', l₂, rfl, hr⟩ := hl.answered d r hret
    exact ⟨l₁, op', l₂ ++ [(c, op)], by simp, hr⟩
  order := fun d r e op' hbefore hmem => by
    rw [List.map_append, List.map_singleton]
    rcases List.mem_append.mp hmem with hmem | hmem
    · exact (hl.order d r e op' hbefore hmem).append [c]
    · cases List.mem_singleton.mp hmem
      -- what has returned is in the order already
      obtain ⟨h₁, h₂, rfl, hret, -⟩ := hbefore
      exact before_of_mem (hl.mem_of_ret (List.mem_append_left _ hret))

/-- An operation returns the answer it had where it took effect. -/
lemma ret {l₁ l₂ : List (C × O)} (hl : Linearizes obj h l) (hsplit : l = l₁ ++ (c, op) :: l₂)
    (hr : r = (obj.step (obj.after l₁) op).1) : Linearizes obj (h ++ [.ret c r]) l where
  nodup := hl.nodup
  called := fun d op' hmem => List.mem_append_left _ (hl.called d op' hmem)
  answered := fun d r' hret => by
    rcases List.mem_append.mp hret with hret | hret
    · exact hl.answered d r' hret
    · cases List.mem_singleton.mp hret
      exact ⟨l₁, op, l₂, hsplit, hr⟩
  order := fun d r' e op' hbefore hmem => by
    rcases before_snoc hbefore with hbefore | ⟨-, heq⟩
    · exact hl.order d r' e op' hbefore hmem
    · cases heq

end Linearizes

end Linear
