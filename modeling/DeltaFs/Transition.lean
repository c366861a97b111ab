import Mathlib.Data.List.Basic
import Mathlib.Logic.Function.Basic

/-!
# Labelled transition systems

A concurrent program is a state, a set of initial states and one partial step
function. The **label** of a step settles everything the program does not
choose itself: which thread moves, what the clock reads, whether an external
call fails. A step may show some **events**; a run collects them in order.

Runs are taken under a side condition `C` on the state before a step and its
label, so "in every run whose steps all meet `C`" is `Run C`, and "in every
run" is `Run fun _ _ => True`.

A run can be taken with its steps or without. `Run` has the events only, and its invariant
rule is how nearly everything about a program is proved. `Steps` also lists the state and
the label of each step, for statements that blame something on a step that was taken; the
two are the same runs (`Steps.run`, `Run.steps`). A schedule is executed by `exec`, which
decides the side condition as it goes and so gives runs that can be computed.
-/

universe u v w

/-- A labelled transition system over states `σ`, labels `κ` and events `ε`. -/
structure TransitionSystem (σ : Type u) (κ : Type v) (ε : Type w) where
  /-- the states a run may start in -/
  init : σ → Prop
  /-- one atomic step; `none` when the step cannot be taken -/
  step : σ → κ → Option (σ × List ε)

namespace TransitionSystem

variable {σ : Type u} {κ : Type v} {ε : Type w} (S : TransitionSystem σ κ ε)
variable {C D : σ → κ → Prop}

/-- `S.Run C tr s`: some run whose steps all satisfy `C` shows the events `tr`
and ends in `s`. -/
inductive Run (C : σ → κ → Prop) : List ε → σ → Prop where
  /-- nothing has happened yet -/
  | init {s : σ} : S.init s → Run C [] s
  /-- one more step -/
  | step {tr : List ε} {s s' : σ} {k : κ} {es : List ε} :
      Run C tr s → C s k → S.step s k = some (s', es) → Run C (tr ++ es) s'

/-- `S.Steps ks tr s`: the run that takes exactly the steps `ks`, each given by the state
before it and its label, shows the events `tr` and ends in `s`. A statement that blames
what happened on a step of the run names one of `ks`. -/
inductive Steps : List (σ × κ) → List ε → σ → Prop where
  /-- nothing has happened yet -/
  | init {s : σ} : S.init s → Steps [] [] s
  /-- one more step -/
  | step {ks : List (σ × κ)} {tr : List ε} {s s' : σ} {k : κ} {es : List ε} :
      Steps ks tr s → S.step s k = some (s', es) → Steps (ks ++ [(s, k)]) (tr ++ es) s'

/-- The steps of a list, as a side condition. -/
def Among (ks : List (σ × κ)) (s : σ) (k : κ) : Prop := (s, k) ∈ ks

variable {S}

/-- A weaker side condition allows more runs. -/
theorem Run.mono (h : ∀ s k, C s k → D s k) {tr : List ε} {s : σ} (hr : S.Run C tr s) :
    S.Run D tr s := by
  induction hr with
  | init h₀ => exact .init h₀
  | step _ hC hs ih => exact .step ih (h _ _ hC) hs

/-- The steps of a run are among themselves, so what is proved of every run under a side
condition can be used of a run whose steps are known. -/
theorem Steps.run {ks : List (σ × κ)} {tr : List ε} {s : σ} (hs : S.Steps ks tr s) :
    S.Run (Among ks) tr s := by
  induction hs with
  | init h₀ => exact .init h₀
  | step _ hs ih =>
    refine .step (ih.mono fun _ _ h => List.mem_append_left _ h) ?_ hs
    exact List.mem_append_right _ (List.mem_singleton_self _)

/-- Every run takes some steps, all of which meet its side condition. -/
theorem Run.steps {tr : List ε} {s : σ} (hr : S.Run C tr s) :
    ∃ ks, S.Steps ks tr s ∧ ∀ p ∈ ks, C p.1 p.2 := by
  induction hr with
  | init h₀ => exact ⟨[], .init h₀, fun p hp => by cases hp⟩
  | @step tr s s' k es _ hC hs ih =>
    obtain ⟨ks, hks, hall⟩ := ih
    refine ⟨ks ++ [(s, k)], .step hks hs, fun p hp => ?_⟩
    rcases List.mem_append.mp hp with hp | hp
    · exact hall p hp
    · rw [List.mem_singleton.mp hp]
      exact hC

/-- A run whose steps all meet a condition is one under that condition. -/
theorem Steps.run_of {ks : List (σ × κ)} {tr : List ε} {s : σ} (hs : S.Steps ks tr s)
    (hC : ∀ p ∈ ks, C p.1 p.2) : S.Run C tr s :=
  hs.run.mono fun s k h => hC (s, k) h

/-- **Invariant rule**: what holds at the start and is kept by every step of a
run holds at its end. The step may use that its first state is itself the end
of a run. -/
theorem Run.invariant {I : List ε → σ → Prop} (h₀ : ∀ s, S.init s → I [] s)
    (hstep : ∀ tr s k s' es, S.Run C tr s → I tr s → C s k → S.step s k = some (s', es) →
      I (tr ++ es) s')
    {tr : List ε} {s : σ} (hr : S.Run C tr s) : I tr s := by
  induction hr with
  | init hi => exact h₀ _ hi
  | step hr hC hs ih => exact hstep _ _ _ _ _ hr ih hC hs

/-- The invariant rule for a property of the state alone. -/
theorem Run.invariant_state {I : σ → Prop} (h₀ : ∀ s, S.init s → I s)
    (hstep : ∀ s k s' es, I s → C s k → S.step s k = some (s', es) → I s')
    {tr : List ε} {s : σ} (hr : S.Run C tr s) : I s :=
  hr.invariant (I := fun _ s => I s) h₀ fun _ _ _ _ _ _ hI hC hs => hstep _ _ _ _ hI hC hs

/-! ## Executing a schedule

A run given by its labels can be computed. This is how runs on concrete inputs are shown to
exist, and how a stretch of a run is spoken of: the rule for invariants has a version for it. -/

variable (S)

/-- Take the steps of a schedule in order, refusing a step whose label fails
the test `c`. -/
def exec (c : σ → κ → Bool) : σ → List κ → Option (σ × List ε)
  | s, [] => some (s, [])
  | s, k :: ks =>
    if c s k then
      match S.step s k with
      | none => none
      | some (s₁, es) => (exec c s₁ ks).map fun p => (p.1, es ++ p.2)
    else none

variable {S}

/-- The first step of a schedule. -/
theorem exec_cons {c : σ → κ → Bool} {s s' : σ} {k : κ} {ks : List κ} {es : List ε}
    (h : S.exec c s (k :: ks) = some (s', es)) :
    ∃ s₁ es₁ es₂, c s k = true ∧ S.step s k = some (s₁, es₁) ∧ S.exec c s₁ ks = some (s', es₂) ∧
      es = es₁ ++ es₂ := by
  rw [exec] at h
  split at h
  · rename_i hc
    split at h
    · cases h
    rename_i s₁ es₁ hs
    obtain ⟨⟨s₂, es₂⟩, hrest, heq⟩ := Option.map_eq_some_iff.mp h
    obtain ⟨rfl, rfl⟩ := Prod.mk.inj heq
    exact ⟨s₁, es₁, es₂, hc, hs, hrest, rfl⟩
  · cases h

/-- A schedule in two parts. -/
theorem exec_append {c : σ → κ → Bool} {s s' : σ} {ks ls : List κ} {es : List ε}
    (h : S.exec c s (ks ++ ls) = some (s', es)) :
    ∃ s₁ es₁ es₂, S.exec c s ks = some (s₁, es₁) ∧ S.exec c s₁ ls = some (s', es₂) ∧
      es = es₁ ++ es₂ := by
  induction ks generalizing s es with
  | nil => exact ⟨s, [], es, rfl, h, rfl⟩
  | cons k ks ih =>
    obtain ⟨s₁, es₁, es₂, hc, hs, hrest, rfl⟩ := exec_cons h
    obtain ⟨s₃, es₃, es₄, h₃, h₄, rfl⟩ := ih hrest
    refine ⟨s₃, es₁ ++ es₃, es₄, ?_, h₄, (List.append_assoc ..).symm⟩
    rw [exec, if_pos hc, hs]
    simp only [h₃, Option.map_some]

/-- **Invariant rule for a schedule**: what holds when it starts, and is kept by
each of its steps, holds when it is over. -/
theorem exec_invariant {c : σ → κ → Bool} {I : σ → List ε → Prop} {ks : List κ}
    (hstep : ∀ s es k s' es', k ∈ ks → I s es → c s k = true → S.step s k = some (s', es') →
      I s' (es ++ es')) :
    ∀ {s s' : σ} {es es' : List ε}, I s es → S.exec c s ks = some (s', es') → I s' (es ++ es') := by
  induction ks with
  | nil =>
    intro s s' es es' hI h
    obtain ⟨rfl, rfl⟩ := Prod.mk.inj (Option.some.inj h)
    rwa [List.append_nil]
  | cons k ks ih =>
    intro s s' es es' hI h
    obtain ⟨s₁, es₁, es₂, hc, hs, hrest, rfl⟩ := exec_cons h
    rw [← List.append_assoc]
    refine ih (fun s es k' s' es' hk => hstep s es k' s' es' (List.mem_cons_of_mem k hk)) ?_ hrest
    exact hstep s es k s₁ es₁ List.mem_cons_self hI hc hs

/-- What a schedule computes is a run. -/
theorem Run.exec {c : σ → κ → Bool} (hc : ∀ s k, c s k = true → C s k) :
    ∀ {ks : List κ} {tr : List ε} {s s' : σ} {es : List ε}, S.Run C tr s →
      S.exec c s ks = some (s', es) → S.Run C (tr ++ es) s' := by
  intro ks
  induction ks with
  | nil =>
    intro tr s s' es hr he
    obtain ⟨rfl, rfl⟩ := Prod.mk.inj (Option.some.inj he)
    simpa using hr
  | cons k ks ih =>
    intro tr s s' es hr he
    obtain ⟨s₁, es₁, es₂, hk, hs, hrest, rfl⟩ := exec_cons he
    have hr₁ := Run.step hr (hc _ _ hk) hs
    rw [← List.append_assoc]
    exact ih hr₁ hrest

/-! ## Pools of operations

The operations of a concurrent program are kept in a list: a new one goes to
the end, one that moves is replaced in place. -/

section Pool

variable {α : Type u} {l : List α} {j k : Nat} {a b : α}

/-- After operation `k` moved, an operation is the moved one or an old one. -/
theorem pool_set (h : (l.set k a)[j]? = some b) :
    (j = k ∧ b = a) ∨ (j ≠ k ∧ l[j]? = some b) := by
  rw [List.getElem?_set] at h
  split at h
  · rename_i hk
    split at h
    · exact .inl ⟨hk.symm, (Option.some.inj h).symm⟩
    · cases h
  · rename_i hk
    exact .inr ⟨fun h => hk h.symm, h⟩

/-- After a new operation arrived, an operation is the new one or an old
one. -/
theorem pool_push (h : (l ++ [a])[j]? = some b) :
    (j = l.length ∧ b = a) ∨ l[j]? = some b := by
  rcases Nat.lt_trichotomy j l.length with hlt | rfl | hgt
  · rw [List.getElem?_append_left hlt] at h
    exact .inr h
  · rw [List.getElem?_concat_length] at h
    exact .inl ⟨rfl, (Option.some.inj h).symm⟩
  · have hnone : (l ++ [a])[j]? = none := by
      apply List.getElem?_eq_none
      rw [List.length_append, List.length_singleton]
      omega
    rw [hnone] at h
    cases h

theorem pool_set_self (h : l[k]? = some b) : (l.set k a)[k]? = some a := by
  rw [List.getElem?_set_self]
  exact (List.getElem?_eq_some_iff.mp h).1

theorem pool_set_ne (h : j ≠ k) : (l.set k a)[j]? = l[j]? := List.getElem?_set_ne h.symm

/-- Operations other than the one that moved are still there. -/
theorem mem_pool_set (hk : l[k]? = some b) {c : α} (hc : c ∈ l) (hne : c ≠ b) : c ∈ l.set k a := by
  obtain ⟨j, hj⟩ := List.mem_iff_getElem?.mp hc
  have hjk : j ≠ k := fun h => hne (Option.some.inj (hj.symm.trans (h ▸ hk)))
  exact List.mem_iff_getElem?.mpr ⟨j, (pool_set_ne hjk).trans hj⟩

theorem pool_push_old (h : l[j]? = some b) : (l ++ [a])[j]? = some b := by
  rw [List.getElem?_append_left (List.getElem?_eq_some_iff.mp h).1]
  exact h

/-- Counting after operation `k` moved. -/
theorem countP_pool_set (q : α → Bool) (h : l[k]? = some b) :
    (l.set k a).countP q + (if q b then 1 else 0) = l.countP q + (if q a then 1 else 0) := by
  obtain ⟨hk, rfl⟩ := List.getElem?_eq_some_iff.mp h
  rw [List.countP_set hk]
  split
  · rename_i hq
    have hpos : 0 < l.countP q := List.countP_pos_iff.mpr ⟨_, List.getElem_mem hk, hq⟩
    omega
  · rw [Nat.sub_zero, Nat.add_zero]

/-! ### Who holds what

`held a` is the object operation `a` holds a reference to. -/

variable {held : α → Option Nat} {p : Nat}

/-- The number of operations that hold a reference to an object. -/
def holders (held : α → Option Nat) (l : List α) (p : Nat) : Nat :=
  l.countP fun a => held a = some p

theorem holders_pos (hk : l[k]? = some b) (hp : held b = some p) : 0 < holders held l p :=
  List.countP_pos_iff.mpr ⟨b, List.mem_of_getElem? hk, decide_eq_true hp⟩

/-- An operation arrives, with nothing. -/
theorem holders_push (l : List α) (h : held a = none) : holders held (l ++ [a]) = holders held l := by
  funext q
  rw [holders, List.countP_append, List.countP_singleton, h]
  rfl

/-- An operation keeps what it holds. -/
theorem holders_set (hk : l[k]? = some b) (h : held a = held b) :
    holders held (l.set k a) = holders held l := by
  funext q
  have hc := countP_pool_set (a := a) (fun c => held c = some q) hk
  rw [h] at hc
  exact Nat.add_right_cancel hc

/-- An operation acquires a reference. -/
theorem holders_acquire (hk : l[k]? = some b) (h : held b = none) (h' : held a = some p) :
    holders held (l.set k a) = Function.update (holders held l) p (holders held l p + 1) := by
  funext q
  have hc := countP_pool_set (a := a) (fun c => held c = some q) hk
  rw [h, h'] at hc
  by_cases hq : q = p
  · subst hq
    rw [Function.update_self]
    simpa [holders] using hc
  · rw [Function.update_of_ne hq]
    simpa [holders, Ne.symm hq] using hc

/-- An operation gives its reference back. -/
theorem holders_release (hk : l[k]? = some b) (h : held b = some p) (h' : held a = none) :
    holders held (l.set k a) = Function.update (holders held l) p (holders held l p - 1) := by
  funext q
  have hc := countP_pool_set (a := a) (fun c => held c = some q) hk
  rw [h, h'] at hc
  by_cases hq : q = p
  · subst hq
    rw [Function.update_self]
    have hc' : (l.set k a).countP (fun c => held c = some q) + 1 =
        l.countP fun c => held c = some q := by simpa using hc
    exact (Nat.sub_eq_of_eq_add hc'.symm).symm
  · rw [Function.update_of_ne hq]
    simpa [holders, Ne.symm hq] using hc

end Pool

end TransitionSystem
