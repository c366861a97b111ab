import Mathlib.Data.List.Basic

/-!
# Linearizability by points

An operation may touch an abstract object several times between its invocation
and its response. A **log** records invocations, responses and these touches
(the *points*) in the order they happen; its **history** is what a client sees
of it. When every operation's points lie between its own invocation and
response, the points in log order are a linearization of the history: they
respect the real-time order, so only legality and the agreement with the
responses are left to prove about a program.
-/

universe u v w x

namespace Linearization

/-- An entry of a log: operation `i` is invoked, returns, or touches the
object. -/
inductive Event (ι : Type u) (ρ : Type v) (η : Type w) where
  /-- operation `i` is invoked -/
  | inv : Nat → ι → Event ι ρ η
  /-- operation `i` returns -/
  | ret : Nat → ρ → Event ι ρ η
  /-- operation `i` touches the abstract object -/
  | pt : Nat → η → Event ι ρ η
  deriving DecidableEq

variable {ι : Type u} {ρ : Type v} {η : Type w} {α : Type x}

namespace Event

/-- The operation an entry belongs to. -/
def id : Event ι ρ η → Nat
  | inv i _ => i
  | ret i _ => i
  | pt i _ => i

/-- Entries a client can see. -/
def visible : Event ι ρ η → Bool
  | pt _ _ => false
  | _ => true

/-- The point of an entry, with its operation. -/
def point? : Event ι ρ η → Option (Nat × η)
  | pt i e => some (i, e)
  | _ => none

/-- The response of operation `i`, if the entry is one. -/
def response? (i : Nat) : Event ι ρ η → Option ρ
  | ret j r => if j = i then some r else none
  | _ => none

end Event

/-- The client-visible part of a log. -/
def history (l : List (Event ι ρ η)) : List (Event ι ρ η) := l.filter Event.visible

/-- The points of a log, in order. -/
def points (l : List (Event ι ρ η)) : List (Nat × η) := l.filterMap Event.point?

/-- What operation `i` returned, `none` while it is pending. -/
def response (h : List (Event ι ρ η)) (i : Nat) : Option ρ := h.findSome? (Event.response? i)

/-- What operation `i` contributes to a sequence of points. -/
def entries (lin : List (Nat × η)) (i : Nat) : List η :=
  (lin.filter fun p => p.1 = i).map Prod.snd

/-- `i` returned before `j` was invoked. -/
def Precedes (h : List (Event ι ρ η)) (i j : Nat) : Prop :=
  ∃ h₁ h₂ h₃ r op, h = h₁ ++ Event.ret i r :: (h₂ ++ Event.inv j op :: h₃)

/-- A sequential object: which touches are legal in a state, and the state
after. -/
structure Spec (α : Type x) (η : Type w) where
  /-- one touch; `none` when it is not legal -/
  step : α → η → Option α

/-- The state after a sequence of touches, `none` when one of them is not
legal. -/
def Spec.run (spec : Spec α η) : α → List η → Option α
  | a, [] => some a
  | a, e :: es => (spec.step a e).bind fun a' => spec.run a' es

theorem Spec.run_append (spec : Spec α η) (a : α) (es fs : List η) :
    spec.run a (es ++ fs) = (spec.run a es).bind fun a' => spec.run a' fs := by
  induction es generalizing a with
  | nil => rfl
  | cons e es ih =>
    simp only [List.cons_append, Spec.run]
    rcases spec.step a e with _ | a'
    · rfl
    · exact ih a'

/-- **Linearizability** of a history over a sequential object, started in
`a₀`. `explains i op r es` says that operation `i`, invoked as `op`, whose
response is `r` (`none` while it is pending) may have touched the object exactly
as in `es`. The number of the operation is there for responses the object does
not account for: an operation that was refused has to be explained by what
happened to that very operation. -/
structure Linearizes (spec : Spec α η) (a₀ : α) (explains : Nat → ι → Option ρ → List η → Prop)
    (h : List (Event ι ρ η)) (lin : List (Nat × η)) : Prop where
  /-- the touches are legal one after the other -/
  legal : (spec.run a₀ (lin.map Prod.snd)).isSome
  /-- each operation's touches fit its response -/
  explained : ∀ i op, Event.inv i op ∈ h → explains i op (response h i) (entries lin i)
  /-- only invoked operations touch the object -/
  invoked : ∀ p ∈ lin, ∃ op, Event.inv p.1 op ∈ h
  /-- an operation that returned before another was invoked touches first -/
  realTime : ∀ i j, Precedes h i j →
    ∃ l₁ l₂, lin = l₁ ++ l₂ ∧ (∀ e, (j, e) ∉ l₁) ∧ ∀ e, (i, e) ∉ l₂

/-- Some order of touches linearizes the history. -/
def Linearizable (spec : Spec α η) (a₀ : α) (explains : Nat → ι → Option ρ → List η → Prop)
    (h : List (Event ι ρ η)) : Prop :=
  ∃ lin, Linearizes spec a₀ explains h lin

/-- `Fits l a`: the entry `a` may come next after the log `l`. An operation is
invoked once, touches the object only between its invocation and its response,
and responds at most once. -/
def Fits (l : List (Event ι ρ η)) : Event ι ρ η → Prop
  | .inv i _ => ∀ e ∈ l, e.id ≠ i
  | .ret i _ => (∃ op, .inv i op ∈ l) ∧ ∀ r, .ret i r ∉ l
  | .pt i _ => (∃ op, .inv i op ∈ l) ∧ ∀ r, .ret i r ∉ l

/-- Logs whose every entry fits what comes before it. -/
def WellFormed (l : List (Event ι ρ η)) : Prop :=
  ∀ l₁ a l₂, l = l₁ ++ a :: l₂ → Fits l₁ a

theorem WellFormed.nil : WellFormed ([] : List (Event ι ρ η)) := by
  intro l₁ a l₂ h
  simp at h

/-- A log grows by entries that fit. -/
theorem WellFormed.append {l : List (Event ι ρ η)} {a : Event ι ρ η} (hl : WellFormed l)
    (ha : Fits l a) : WellFormed (l ++ [a]) := by
  intro l₁ b l₂ h
  rcases List.eq_nil_or_concat l₂ with rfl | ⟨l₂', c, rfl⟩
  · obtain ⟨rfl, heq⟩ := List.append_inj' h rfl
    obtain rfl := (List.cons.inj heq).1
    exact ha
  · have h' : l ++ [a] = (l₁ ++ b :: l₂') ++ [c] := by simpa using h
    exact hl l₁ b l₂' (List.append_inj' h' rfl).1

@[simp] theorem points_inv_cons (i : Nat) (op : ι) (l : List (Event ι ρ η)) :
    points (.inv i op :: l) = points l := rfl

@[simp] theorem points_ret_cons (i : Nat) (r : ρ) (l : List (Event ι ρ η)) :
    points (.ret i r :: l) = points l := rfl

@[simp] theorem points_pt_cons (i : Nat) (e : η) (l : List (Event ι ρ η)) :
    points (.pt i e :: l) = (i, e) :: points l := rfl

@[simp] theorem points_append (l m : List (Event ι ρ η)) :
    points (l ++ m) = points l ++ points m := List.filterMap_append

theorem mem_points {l : List (Event ι ρ η)} {i : Nat} {e : η} :
    (i, e) ∈ points l ↔ .pt i e ∈ l := by
  rw [points, List.mem_filterMap]
  constructor
  · rintro ⟨a, ha, hp⟩
    cases a with
    | inv j op => cases hp
    | ret j r => cases hp
    | pt j f =>
      obtain ⟨rfl, rfl⟩ := Prod.mk.inj (Option.some.inj hp)
      exact ha
  · intro h
    exact ⟨_, h, rfl⟩

@[simp] theorem entries_append (l m : List (Nat × η)) (i : Nat) :
    entries (l ++ m) i = entries l i ++ entries m i := by
  simp [entries]

/-- The points of one operation, as a log. -/
theorem points_pts (i : Nat) (es : List η) :
    points (es.map (Event.pt i) : List (Event ι ρ η)) = es.map fun e => (i, e) := by
  induction es with
  | nil => rfl
  | cons e es ih =>
    rw [List.map_cons, List.map_cons, ← ih]
    rfl

theorem entries_pts_self (i : Nat) (es : List η) :
    entries (points (es.map (Event.pt i) : List (Event ι ρ η))) i = es := by
  rw [points_pts]
  simp [entries, List.filter_map, Function.comp_def]

theorem entries_pts_ne {i j : Nat} (h : j ≠ i) (es : List η) :
    entries (points (es.map (Event.pt i) : List (Event ι ρ η))) j = [] := by
  rw [points_pts]
  simp [entries, List.filter_map, Function.comp_def, h.symm]

theorem mem_entries {lin : List (Nat × η)} {i : Nat} {e : η} :
    e ∈ entries lin i ↔ (i, e) ∈ lin := by
  simp [entries]

/-- The touches of an operation are points of the log. -/
theorem mem_entries_points {l : List (Event ι ρ η)} {i : Nat} {e : η} :
    e ∈ entries (points l) i ↔ .pt i e ∈ l := mem_entries.trans mem_points

theorem inv_mem_history {l : List (Event ι ρ η)} {i : Nat} {op : ι} :
    .inv i op ∈ history l ↔ .inv i op ∈ l := by
  simp [history, Event.visible]

theorem response_history (l : List (Event ι ρ η)) (i : Nat) :
    response (history l) i = response l i := by
  induction l with
  | nil => rfl
  | cons a l ih =>
    simp only [response, history] at ih ⊢
    cases a with
    | inv j op => simp only [List.filter_cons, Event.visible, if_true, List.findSome?_cons, ih]
    | ret j r => simp only [List.filter_cons, Event.visible, if_true, List.findSome?_cons, ih]
    | pt j e =>
      simpa [List.filter_cons, Event.visible, List.findSome?_cons, Event.response?] using ih

/-- What the log says an operation returned is in the log. -/
theorem ret_mem_of_response {l : List (Event ι ρ η)} {i : Nat} {r : ρ} (h : response l i = some r) :
    .ret i r ∈ l := by
  obtain ⟨a, ha, hr⟩ := List.exists_of_findSome?_eq_some h
  cases a with
  | inv j op => cases hr
  | ret j r' =>
    rw [Event.response?] at hr
    split at hr
    · rename_i hj
      cases hr
      rwa [hj] at ha
    · cases hr
  | pt j e => cases hr

/-- Two entries of the history in this order come from the log in this
order. -/
theorem precedes_of_history {l : List (Event ι ρ η)} {i j : Nat} (h : Precedes (history l) i j) :
    Precedes l i j := by
  obtain ⟨h₁, h₂, h₃, r, op, heq⟩ := h
  obtain ⟨l₁, lr, rfl, -, hr⟩ := List.filter_eq_append_iff.mp heq
  obtain ⟨a₁, a₂, rfl, -, -, ha₂⟩ := List.filter_eq_cons_iff.mp hr
  obtain ⟨b₁, br, rfl, -, hbr⟩ := List.filter_eq_append_iff.mp ha₂
  obtain ⟨c₁, c₂, rfl, -, -, -⟩ := List.filter_eq_cons_iff.mp hbr
  exact ⟨l₁ ++ a₁, b₁ ++ c₁, c₂, r, op, by simp⟩

/-- In a well-formed log an operation touches nothing after its response. -/
theorem WellFormed.no_pt_after_ret {l₁ l₂ : List (Event ι ρ η)} {i : Nat} {r : ρ}
    (hl : WellFormed (l₁ ++ .ret i r :: l₂)) (e : η) : .pt i e ∉ l₂ := by
  intro he
  obtain ⟨m₁, m₂, rfl⟩ := List.append_of_mem he
  obtain ⟨-, hno⟩ := hl (l₁ ++ .ret i r :: m₁) (.pt i e) m₂ (by simp)
  exact hno r (by simp)

/-- In a well-formed log an operation touches nothing before its
invocation. -/
theorem WellFormed.no_pt_before_inv {l₁ l₂ : List (Event ι ρ η)} {j : Nat} {op : ι}
    (hl : WellFormed (l₁ ++ .inv j op :: l₂)) (e : η) : .pt j e ∉ l₁ :=
  fun he => hl l₁ (.inv j op) l₂ rfl _ he rfl

/-- A log grows by points of an operation that is pending. -/
theorem WellFormed.append_pts {l : List (Event ι ρ η)} (hl : WellFormed l) {i : Nat} {op : ι}
    (hinv : .inv i op ∈ l) (hret : ∀ r, .ret i r ∉ l) (es : List η) :
    WellFormed (l ++ es.map (Event.pt i)) := by
  induction es generalizing l with
  | nil => rwa [List.map_nil, List.append_nil]
  | cons e es ih =>
    rw [List.map_cons, ← List.singleton_append, ← List.append_assoc]
    refine ih (hl.append ⟨⟨op, hinv⟩, hret⟩) (List.mem_append_left _ hinv) fun r hr => ?_
    rcases List.mem_append.mp hr with hr | hr
    · exact hret r hr
    · cases List.mem_singleton.mp hr

/-- In a well-formed log every entry belongs to an operation that was
invoked. -/
theorem WellFormed.invoked {l : List (Event ι ρ η)} (hl : WellFormed l) {a : Event ι ρ η}
    (ha : a ∈ l) : ∃ op, .inv a.id op ∈ l := by
  obtain ⟨l₁, l₂, rfl⟩ := List.append_of_mem ha
  have hfit := hl l₁ a l₂ rfl
  cases a with
  | inv j op => exact ⟨op, ha⟩
  | ret j r =>
    obtain ⟨⟨op, hop⟩, -⟩ := hfit
    exact ⟨op, List.mem_append_left _ hop⟩
  | pt j e =>
    obtain ⟨⟨op, hop⟩, -⟩ := hfit
    exact ⟨op, List.mem_append_left _ hop⟩

/-- **The point rule**: in a well-formed log the points, in log order, are a
linearization of the history as soon as they are legal and fit the
responses. -/
theorem WellFormed.linearizes {spec : Spec α η} {a₀ : α}
    {explains : Nat → ι → Option ρ → List η → Prop} {l : List (Event ι ρ η)} (hl : WellFormed l)
    (hlegal : (spec.run a₀ ((points l).map Prod.snd)).isSome)
    (hexplained : ∀ i op, .inv i op ∈ l → explains i op (response l i) (entries (points l) i)) :
    Linearizes spec a₀ explains (history l) (points l) where
  legal := hlegal
  explained i op hi := by
    rw [response_history]
    exact hexplained i op (inv_mem_history.mp hi)
  invoked p hp := by
    obtain ⟨l₁, l₂, rfl⟩ := List.append_of_mem (mem_points.mp hp)
    obtain ⟨⟨op, hop⟩, -⟩ := hl l₁ _ l₂ rfl
    exact ⟨op, inv_mem_history.mpr (List.mem_append_left _ hop)⟩
  realTime i j hij := by
    obtain ⟨l₁, l₂, l₃, r, op, rfl⟩ := precedes_of_history hij
    refine ⟨points l₁, points (.ret i r :: (l₂ ++ .inv j op :: l₃)), points_append .., ?_, ?_⟩
    · intro e he
      have hl' : WellFormed ((l₁ ++ .ret i r :: l₂) ++ .inv j op :: l₃) := by simpa using hl
      exact hl'.no_pt_before_inv e (List.mem_append_left _ (mem_points.mp he))
    · intro e he
      rcases List.mem_cons.mp (mem_points.mp he) with he | he
      · cases he
      · exact hl.no_pt_after_ret e he

end Linearization
