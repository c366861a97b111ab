import DeltaFs.Linearization

/-!
# Operations that take effect at once

An object whose operations each do one thing: a touch is an operation with what it
returns. In a log where an operation touches the object at most once before it returns,
and then returns what it did there, only the touches are left to be shown legal.

`OnceLog` is what a proof about such an object has to keep: three rules, one for each kind
of entry, with the touch as the moment at which the operation takes effect.
-/

universe u v w

namespace Linearization

variable {ι : Type u} {ρ : Type v} {α : Type w}

/-- The object whose operations are those of a function. -/
def Spec.ofStep [DecidableEq ρ] (f : α → ι → α × ρ) : Spec α (ι × ρ) where
  step a e := if (f a e.1).2 = e.2 then some (f a e.1).1 else none

theorem Spec.ofStep_step [DecidableEq ρ] {f : α → ι → α × ρ} {a a' : α} {op : ι} {r : ρ}
    (h : f a op = (a', r)) : (Spec.ofStep f).step a (op, r) = some a' := by
  simp [Spec.ofStep, h]

/-- What an operation did, by what it returned. -/
def Once (op : ι) : Option ρ → List (ι × ρ) → Prop
  | some r, es => es = [(op, r)]
  | none, es => es = [] ∨ ∃ r, es = [(op, r)]

/-- Operations touch the object at most once, and return what they did. -/
structure OnceLog (l : List (Event ι ρ (ι × ρ))) : Prop where
  wf : WellFormed l
  once : ∀ i op, .inv i op ∈ l → Once op (response l i) (entries (points l) i)

/-- Operation `i` has not returned; `r?` is what it did. -/
structure Pending (l : List (Event ι ρ (ι × ρ))) (i : Nat) (op : ι) (r? : Option ρ) : Prop where
  inv : .inv i op ∈ l
  only : ∀ op', .inv i op' ∈ l → op' = op
  ret : ∀ r, .ret i r ∉ l
  entries : entries (points l) i = r?.toList.map fun r => (op, r)

variable {l : List (Event ι ρ (ι × ρ))} {i : Nat} {op : ι} {r : ρ} {r? : Option ρ}
  {a : Event ι ρ (ι × ρ)}

theorem response_append (l m : List (Event ι ρ (ι × ρ))) (i : Nat) :
    response (l ++ m) i = (response l i).or (response m i) := List.findSome?_append

theorem response_of_no_ret (h : ∀ r, .ret i r ∉ l) : response l i = none := by
  cases hr : response l i with
  | none => rfl
  | some r => exact absurd (ret_mem_of_response hr) (h r)

theorem id_of_mem_singleton {b : Event ι ρ (ι × ρ)} (h : b ∈ [a]) : a.id = b.id := by
  rw [List.mem_singleton.mp h]

/-- An entry says nothing of other operations. -/
theorem response_other (h : a.id ≠ i) : response [a] i = none :=
  response_of_no_ret fun _ hr => h (id_of_mem_singleton hr)

theorem entries_other (h : a.id ≠ i) : entries (points [a]) i = [] := by
  rw [List.eq_nil_iff_forall_not_mem]
  intro e he
  exact h (id_of_mem_singleton (mem_entries_points.mp he))

/-- An entry of another operation. -/
theorem Pending.append (hp : Pending l i op r?) (h : a.id ≠ i) : Pending (l ++ [a]) i op r? where
  inv := List.mem_append_left _ hp.inv
  only op' h' := by
    rcases List.mem_append.mp h' with h' | h'
    · exact hp.only op' h'
    · exact absurd (id_of_mem_singleton h') h
  ret r h' := by
    rcases List.mem_append.mp h' with h' | h'
    · exact hp.ret r h'
    · exact h (id_of_mem_singleton h')
  entries := by rw [points_append, entries_append, entries_other h, List.append_nil, hp.entries]

/-- What operation `i` did is left to be shown. -/
theorem OnceLog.append (h : OnceLog l) (hfits : Fits l a) (j : Nat) (ha : a.id = j)
    (honce : ∀ op, .inv j op ∈ l ++ [a] →
      Once op (response (l ++ [a]) j) (entries (points (l ++ [a])) j)) :
    OnceLog (l ++ [a]) where
  wf := h.wf.append hfits
  once i op hop := by
    by_cases hi : j = i
    · subst hi
      exact honce op hop
    · rw [← ha] at hi
      rw [response_append, response_other hi, Option.or_none, points_append, entries_append,
        entries_other hi, List.append_nil]
      rcases List.mem_append.mp hop with hop | hop
      · exact h.once i op hop
      · exact absurd (id_of_mem_singleton hop) hi

theorem OnceLog.nil : OnceLog ([] : List (Event ι ρ (ι × ρ))) := ⟨.nil, fun _ _ h => by cases h⟩

/-- **An operation is invoked.** -/
theorem OnceLog.inv (h : OnceLog l) (hnew : ∀ e ∈ l, e.id ≠ i) (op : ι) :
    OnceLog (l ++ [.inv i op]) ∧ Pending (l ++ [.inv i op]) i op none := by
  have hno : ∀ a : Event ι ρ (ι × ρ), a.id = i → a ∉ l := fun a ha hmem => hnew a hmem ha
  have hpend : Pending (l ++ [.inv i op]) i op none := by
    refine ⟨List.mem_append_right _ (List.mem_singleton_self _), fun op' h' => ?_, fun r h' => ?_, ?_⟩
    · rcases List.mem_append.mp h' with h' | h'
      · exact absurd h' (hno _ rfl)
      · exact (Event.inv.inj (List.mem_singleton.mp h')).2
    · rcases List.mem_append.mp h' with h' | h'
      · exact hno _ rfl h'
      · cases List.mem_singleton.mp h'
    · refine List.eq_nil_iff_forall_not_mem.mpr fun e he => ?_
      rcases List.mem_append.mp (mem_entries_points.mp he) with he | he
      · exact hno _ rfl he
      · cases List.mem_singleton.mp he
  refine ⟨h.append hnew i rfl fun op' _ => ?_, hpend⟩
  rw [response_of_no_ret hpend.ret]
  exact .inl hpend.entries

/-- **It touches the object**, if it has not before. -/
theorem OnceLog.pt (h : OnceLog l) (hp : Pending l i op none) (r : ρ) :
    OnceLog (l ++ [.pt i (op, r)]) ∧ Pending (l ++ [.pt i (op, r)]) i op (some r) := by
  have hpend : Pending (l ++ [.pt i (op, r)]) i op (some r) := by
    refine ⟨List.mem_append_left _ hp.inv, fun op' h' => ?_, fun r' h' => ?_, ?_⟩
    · rcases List.mem_append.mp h' with h' | h'
      · exact hp.only op' h'
      · cases List.mem_singleton.mp h'
    · rcases List.mem_append.mp h' with h' | h'
      · exact hp.ret r' h'
      · cases List.mem_singleton.mp h'
    · rw [points_append, entries_append, hp.entries]
      exact entries_pts_self i [(op, r)]
  refine ⟨h.append ⟨⟨op, hp.inv⟩, hp.ret⟩ i rfl fun op' hop' => ?_, hpend⟩
  obtain rfl := hpend.only op' hop'
  rw [response_of_no_ret hpend.ret]
  exact .inr ⟨r, hpend.entries⟩

/-- **It returns** what it did. -/
theorem OnceLog.ret (h : OnceLog l) (hp : Pending l i op (some r)) : OnceLog (l ++ [.ret i r]) := by
  refine h.append ⟨⟨op, hp.inv⟩, hp.ret⟩ i rfl fun op' hop' => ?_
  have hop : op' = op := by
    rcases List.mem_append.mp hop' with hop' | hop'
    · exact hp.only op' hop'
    · cases List.mem_singleton.mp hop'
  rw [hop, response_append, response_of_no_ret hp.ret, points_append, entries_append, hp.entries]
  show Once op ((none : Option ρ).or (response [.ret i r] i)) _
  rw [Option.none_or, response, List.findSome?_cons, Event.response?, if_pos rfl]
  rfl

/-- **The point rule** for operations that touch the object at most once. Legality is all
that is left to show, since a response is that of the one touch of its operation. -/
theorem OnceLog.linearizes (h : OnceLog l) {spec : Spec α (ι × ρ)} {a₀ a : α}
    (hlegal : spec.run a₀ ((points l).map Prod.snd) = some a) :
    Linearizes spec a₀ (fun _ => Once) (history l) (points l) :=
  h.wf.linearizes (by rw [hlegal]; rfl) h.once

end Linearization
