import DeltaFs.Linearization
import Mathlib.Data.Nat.Pairing
import Mathlib.Logic.Function.Basic

/-!
# Linearizability of several objects

A log of several objects, each with operations that it numbers on its own; in the log of
them all an operation is known by the pair. An object is a **shard** of a whole if the
touches it owns can be made of the whole just as well. Then the whole is linearizable if
the touches are legal at each shard: they are in the order of the one log, so real time
is respected across the shards too.

What a shard may own is settled by a predicate on touches, so it need not be a fixed part of
anything. That linearizability is local is why it is worth proving of one object of many.
-/

universe u v w x y

namespace Linearization

variable {ι : Type u} {ρ : Type v} {η : Type w} {α : Type x} {β : Type y}

/-! ## One log

The operations of all objects in one log, where an operation is named by its object and its
number there. The log of one object is what is left when the entries of the others are taken
out. Real time is kept in both directions as far as one object is concerned. -/

/-- An entry of object `k`, in the log of all objects. -/
def Event.of (k : Nat) : Event ι ρ η → Event ι ρ η
  | .inv i op => .inv (Nat.pair k i) op
  | .ret i r => .ret (Nat.pair k i) r
  | .pt i e => .pt (Nat.pair k i) e

/-- The log of object `k`. -/
def object (k : Nat) (l : List (Nat × Event ι ρ η)) : List (Event ι ρ η) :=
  l.filterMap fun p => if p.1 = k then some p.2 else none

/-- The log of all objects. -/
def merged (l : List (Nat × Event ι ρ η)) : List (Event ι ρ η) := l.map fun p => p.2.of p.1

variable {k q i : Nat} {a b : Event ι ρ η} {l l₁ l₂ : List (Nat × Event ι ρ η)}

theorem Event.of_id (k : Nat) (a : Event ι ρ η) : (a.of k).id = Nat.pair k a.id := by
  cases a with
  | inv i op => rfl
  | ret i r => rfl
  | pt i e => rfl

theorem Event.of_inj (h : a.of k = b.of q) : k = q ∧ a = b := by
  cases a with
  | inv i op =>
    cases b with
    | inv j op' =>
      obtain ⟨hp, rfl⟩ := Event.inv.inj h
      obtain ⟨rfl, rfl⟩ := Nat.pair_eq_pair.mp hp
      exact ⟨rfl, rfl⟩
    | ret j r => cases h
    | pt j e => cases h
  | ret i r =>
    cases b with
    | inv j op => cases h
    | ret j r' =>
      obtain ⟨hp, rfl⟩ := Event.ret.inj h
      obtain ⟨rfl, rfl⟩ := Nat.pair_eq_pair.mp hp
      exact ⟨rfl, rfl⟩
    | pt j e => cases h
  | pt i e =>
    cases b with
    | inv j op => cases h
    | ret j r => cases h
    | pt j e' =>
      obtain ⟨hp, rfl⟩ := Event.pt.inj h
      obtain ⟨rfl, rfl⟩ := Nat.pair_eq_pair.mp hp
      exact ⟨rfl, rfl⟩

theorem object_cons_self (k : Nat) (a : Event ι ρ η) (l : List (Nat × Event ι ρ η)) :
    object k ((k, a) :: l) = a :: object k l :=
  List.filterMap_cons_some (if_pos rfl)

theorem object_cons_ne (h : q ≠ k) (a : Event ι ρ η) (l : List (Nat × Event ι ρ η)) :
    object k ((q, a) :: l) = object k l :=
  List.filterMap_cons_none (if_neg h)

theorem object_append (k : Nat) (l₁ l₂ : List (Nat × Event ι ρ η)) :
    object k (l₁ ++ l₂) = object k l₁ ++ object k l₂ := List.filterMap_append

theorem mem_object : a ∈ object k l ↔ (k, a) ∈ l := by
  induction l with
  | nil => exact iff_of_false List.not_mem_nil List.not_mem_nil
  | cons p l ih =>
    obtain ⟨q, b⟩ := p
    by_cases hq : q = k
    · subst hq
      rw [object_cons_self, List.mem_cons, List.mem_cons, ih, Prod.mk.injEq, eq_self_iff_true,
        true_and]
    · rw [object_cons_ne hq, ih, List.mem_cons, Prod.mk.injEq]
      exact ⟨.inr, fun h => h.resolve_left fun h => hq h.1.symm⟩

theorem mem_merged : a.of k ∈ merged l ↔ a ∈ object k l := by
  rw [mem_object, merged, List.mem_map]
  constructor
  · rintro ⟨⟨q, b⟩, hmem, heq⟩
    obtain ⟨rfl, rfl⟩ := Event.of_inj heq
    exact hmem
  · intro h
    exact ⟨_, h, rfl⟩

/-- Every entry is one of an object. -/
theorem exists_of_mem_merged (h : a ∈ merged l) : ∃ k b, a = b.of k ∧ b ∈ object k l := by
  obtain ⟨⟨k, b⟩, hmem, rfl⟩ := List.mem_map.mp h
  exact ⟨k, b, rfl, mem_object.mpr hmem⟩

/-- An entry that fits the log of its object fits the log of them all. -/
theorem Fits.merged (h : Fits (object k l) a) : Fits (merged l) (a.of k) := by
  cases a with
  | inv i op =>
    intro e he hid
    obtain ⟨q, b, rfl, hb⟩ := exists_of_mem_merged he
    rw [Event.of_id] at hid
    obtain ⟨rfl, hi⟩ := Nat.pair_eq_pair.mp hid
    exact h b hb hi
  | ret i r =>
    obtain ⟨⟨op, hop⟩, hno⟩ := h
    refine ⟨⟨op, mem_merged.mpr hop⟩, fun r' hr' => hno r' ?_⟩
    exact mem_merged.mp (show (Event.ret i r').of k ∈ Linearization.merged l from hr')
  | pt i e =>
    obtain ⟨⟨op, hop⟩, hno⟩ := h
    refine ⟨⟨op, mem_merged.mpr hop⟩, fun r' hr' => hno r' ?_⟩
    exact mem_merged.mp (show (Event.ret i r').of k ∈ Linearization.merged l from hr')

theorem WellFormed.merged (h : ∀ k, WellFormed (object k l)) : WellFormed (merged l) := by
  intro m₁ a m₂ heq
  obtain ⟨l₁, l₂, rfl, rfl, htail⟩ := List.map_eq_append_iff.mp heq
  obtain ⟨⟨k, b⟩, l₃, rfl, rfl, rfl⟩ := List.map_eq_cons_iff.mp htail
  have hk := h k
  rw [object_append, object_cons_self] at hk
  exact (hk _ b _ rfl).merged

/-- What an operation returned. -/
theorem response_merged (l : List (Nat × Event ι ρ η)) (k i : Nat) :
    response (merged l) (Nat.pair k i) = response (object k l) i := by
  have hof : ∀ q (a : Event ι ρ η), (a.of q).response? (Nat.pair k i) =
      if q = k then a.response? i else none := by
    intro q a
    cases a with
    | inv j op => exact (ite_self none).symm
    | ret j r =>
      rw [Event.of, Event.response?, Event.response?]
      by_cases hq : q = k
      · rw [if_pos hq, hq]
        simp only [Nat.pair_eq_pair, true_and]
      · rw [if_neg hq, if_neg fun h => hq (Nat.pair_eq_pair.mp h).1]
    | pt j e => exact (ite_self none).symm
  induction l with
  | nil => rfl
  | cons p l ih =>
    obtain ⟨q, a⟩ := p
    have hcons : response (merged ((q, a) :: l)) (Nat.pair k i) =
        ((a.of q).response? (Nat.pair k i)).or (response (merged l) (Nat.pair k i)) := by
      rw [response, merged, List.map_cons, List.findSome?_cons]
      cases (a.of q).response? (Nat.pair k i) with
      | none => rfl
      | some r => rfl
    rw [hcons, hof, ih]
    by_cases hq : q = k
    · rw [if_pos hq, hq, object_cons_self, response, response, List.findSome?_cons]
      cases a.response? i with
      | none => rfl
      | some r => rfl
    · rw [if_neg hq, object_cons_ne hq, Option.none_or]

/-- What an operation has touched. -/
theorem entries_merged (l : List (Nat × Event ι ρ η)) (k i : Nat) :
    entries (points (merged l)) (Nat.pair k i) = entries (points (object k l)) i := by
  have hof : ∀ q (a : Event ι ρ η), entries (points [a.of q]) (Nat.pair k i) =
      if q = k then entries (points [a]) i else [] := by
    intro q a
    cases a with
    | inv j op => exact (ite_self []).symm
    | ret j r => exact (ite_self []).symm
    | pt j e =>
      show entries [(Nat.pair q j, e)] (Nat.pair k i) = if q = k then entries [(j, e)] i else []
      rw [entries, entries]
      by_cases hq : q = k
      · rw [if_pos hq, hq]
        simp only [List.filter_cons, List.filter_nil, Nat.pair_eq_pair, true_and]
        split
        · rfl
        · rfl
      · have hne : ¬Nat.pair q j = Nat.pair k i := fun h => hq (Nat.pair_eq_pair.mp h).1
        rw [if_neg hq, List.filter_cons, if_neg (by simpa using hne)]
        rfl
  induction l with
  | nil => rfl
  | cons p l ih =>
    obtain ⟨q, a⟩ := p
    have hcons : merged ((q, a) :: l) = [a.of q] ++ merged l := rfl
    rw [hcons, points_append, entries_append, hof, ih]
    by_cases hq : q = k
    · have hself : object k ((q, a) :: l) = [a] ++ object k l := by
        rw [hq, object_cons_self, List.singleton_append]
      rw [if_pos hq, hself, points_append, entries_append]
    · rw [if_neg hq, object_cons_ne hq, List.nil_append]

/-! ## Shards

The objects together implement one big object if each owns a part of its state, and what an
operation touches at its object is a touch of the whole. Then no order has to be constructed:
the order of the touches in the common log serves for all of them. -/

/-- What object `k` owns of the whole: whatever it makes of its own state, the whole can
make of the states of all objects, which `R` relates to one. -/
structure Shards (spec : Spec α η) (whole : Spec β η) (R : (Nat → α) → β → Prop)
    (Owns : Nat → η → Prop) : Prop where
  step : ∀ {a b k e a'}, R a b → Owns k e → spec.step (a k) e = some a' →
    ∃ b', whole.step b e = some b' ∧ R (Function.update a k a') b'

variable {spec : Spec α η} {whole : Spec β η} {R : (Nat → α) → β → Prop} {Owns : Nat → η → Prop}

/-- **A run of the shards is one of the whole.** A touch changes the whole as it changes
its shard, and leaves what the others own alone. -/
theorem Shards.run (h : Shards spec whole R Owns) {l : List (Nat × Event ι ρ η)}
    (hown : ∀ k i e, (k, .pt i e) ∈ l → Owns k e) {s s' : Nat → α} {t : β} (hR : R s t)
    (hlegal : ∀ k, spec.run (s k) ((points (object k l)).map Prod.snd) = some (s' k)) :
    ∃ t', whole.run t ((points (merged l)).map Prod.snd) = some t' ∧ R s' t' := by
  induction l generalizing s t with
  | nil =>
    obtain rfl : s = s' := funext fun k => Option.some.inj (hlegal k)
    exact ⟨t, rfl, hR⟩
  | cons p l ih =>
    obtain ⟨q, a⟩ := p
    have hown' := fun k i e he => hown k i e (List.mem_cons_of_mem _ he)
    have hskip : ∀ {a : Event ι ρ η}, Event.point? a = none → ∀ k,
        points (object k ((q, a) :: l)) = points (object k l) := by
      intro a ha k
      by_cases hq : q = k
      · rw [← hq, object_cons_self, points, List.filterMap_cons_none ha, points]
      · rw [object_cons_ne hq]
    cases a with
    | inv i op => exact ih hown' hR fun k => by rw [← hskip (a := .inv i op) rfl]; exact hlegal k
    | ret i r => exact ih hown' hR fun k => by rw [← hskip (a := .ret i r) rfl]; exact hlegal k
    | pt i e =>
      have hq := hlegal q
      rw [object_cons_self, points_pt_cons, List.map_cons] at hq
      obtain ⟨c, hc, hq⟩ := Option.bind_eq_some_iff.mp hq
      obtain ⟨t₁, ht₁, hR₁⟩ := h.step hR (hown q i e List.mem_cons_self) hc
      obtain ⟨t', ht', hR'⟩ := ih hown' hR₁ fun k => by
        by_cases hk : q = k
        · rw [← hk, Function.update_self]
          exact hq
        · rw [Function.update_of_ne (Ne.symm hk), ← object_cons_ne hk (.pt i e)]
          exact hlegal k
      refine ⟨t', ?_, hR'⟩
      show (whole.step t e).bind _ = some t'
      rw [ht₁]
      exact ht'

/-- **Linearizability is local.** The order is that of the one log, which each shard sees a
part of. -/
theorem Shards.linearizes (h : Shards spec whole R Owns)
    {explains : Nat → ι → Option ρ → List η → Prop}
    (hwf : ∀ k, WellFormed (object k l)) (hown : ∀ k i e, (k, .pt i e) ∈ l → Owns k e)
    {s s' : Nat → α} {t : β} (hR : R s t)
    (hlegal : ∀ k, spec.run (s k) ((points (object k l)).map Prod.snd) = some (s' k))
    (hexplained : ∀ k i op, .inv i op ∈ object k l →
      explains (Nat.pair k i) op (response (object k l) i) (entries (points (object k l)) i)) :
    Linearizes whole t explains (history (merged l)) (points (merged l)) := by
  obtain ⟨t', ht', -⟩ := h.run hown hR hlegal
  refine (WellFormed.merged hwf).linearizes (by rw [ht']; rfl) fun n op hop => ?_
  obtain ⟨k, b, heq, hb⟩ := exists_of_mem_merged hop
  cases b with
  | inv i op' =>
    obtain ⟨rfl, rfl⟩ := Event.inv.inj heq
    rw [response_merged, entries_merged]
    exact hexplained k i op hb
  | ret i r => cases heq
  | pt i e => cases heq

end Linearization
