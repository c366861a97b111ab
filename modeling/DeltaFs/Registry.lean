import Mathlib.Logic.Function.Basic

/-!
# Tables of heap objects

An intrusive hash table holds pointers to objects that carry their own key. As
a map from keys to pointers it **indexes** a heap when it holds exactly the
objects the heap has, each under its own key. Allocating an object and entering
it, removing and freeing it, and changing it without touching its key all keep
this.
-/

universe u v

namespace Registry

variable {κ : Type u} {β : Type v} {key : β → κ} {table : κ → Option Nat}
  {mem : Nat → Option β} {p q : Nat} {a b : β} {k : κ}

/-- The table holds exactly the objects there are, each under its own key. -/
structure Indexed (key : β → κ) (table : κ → Option Nat) (mem : Nat → Option β) : Prop where
  object : ∀ {p b}, mem p = some b → table (key b) = some p
  index : ∀ {k p}, table k = some p → ∃ b, mem p = some b ∧ key b = k

theorem Indexed.empty (key : β → κ) : Indexed key (fun _ => none) fun _ => none where
  object hp := by cases hp
  index hp := by cases hp

/-- There is one object of a key. -/
theorem Indexed.unique (hi : Indexed key table mem) (hp : mem p = some a) (hq : mem q = some b)
    (hk : key a = key b) : p = q := by
  have ha := hi.object hp
  rw [hk, hi.object hq] at ha
  exact (Option.some.inj ha).symm

/-- A key that is not in the table has no object. -/
theorem Indexed.key_ne (hi : Indexed key table mem) (hk : table k = none) (hp : mem p = some a) :
    key a ≠ k := by
  rintro rfl
  rw [hi.object hp] at hk
  cases hk

/-- **A new object**, of a key that is not in the table. Its address is new as well, so
no other key can lead to it. -/
theorem Indexed.insert [DecidableEq κ] (hi : Indexed key table mem)
    (ha : key a = k) (hk : table k = none) (hp : mem p = none) :
    Indexed key (Function.update table k (some p)) (Function.update mem p (some a)) where
  object {q b} hq := by
    by_cases hqp : q = p
    · subst hqp
      rw [Function.update_self] at hq
      cases hq
      rw [ha, Function.update_self]
    · rw [Function.update_of_ne hqp] at hq
      rw [Function.update_of_ne (hi.key_ne hk hq)]
      exact hi.object hq
  index {j q} hq := by
    by_cases hj : j = k
    · rw [hj, Function.update_self] at hq
      cases hq
      exact ⟨a, Function.update_self .., ha.trans hj.symm⟩
    · rw [Function.update_of_ne hj] at hq
      obtain ⟨b, hb, hbk⟩ := hi.index hq
      have hqp : q ≠ p := by
        rintro rfl
        rw [hb] at hp
        cases hp
      exact ⟨b, by rw [Function.update_of_ne hqp]; exact hb, hbk⟩

/-- **An object leaves** the table and the heap. Only its own key leads to it, so no
entry of the table is left dangling. -/
theorem Indexed.remove [DecidableEq κ] (hi : Indexed key table mem) (hp : mem p = some a) :
    Indexed key (Function.update table (key a) none) (Function.update mem p none) where
  object {q b} hq := by
    have hqp : q ≠ p := by
      rintro rfl
      rw [Function.update_self] at hq
      cases hq
    rw [Function.update_of_ne hqp] at hq
    have hk : key b ≠ key a := fun hk => hqp (hi.unique hq hp hk)
    rw [Function.update_of_ne hk]
    exact hi.object hq
  index {k q} hq := by
    have hk : k ≠ key a := by
      rintro rfl
      rw [Function.update_self] at hq
      cases hq
    rw [Function.update_of_ne hk] at hq
    obtain ⟨b, hb, rfl⟩ := hi.index hq
    have hqp : q ≠ p := by
      rintro rfl
      obtain rfl := Option.some.inj (hp.symm.trans hb)
      exact hk rfl
    exact ⟨b, by rw [Function.update_of_ne hqp]; exact hb, rfl⟩

/-- **An object changes**, but not its key. -/
theorem Indexed.modify (hi : Indexed key table mem) (hp : mem p = some a) (hk : key b = key a) :
    Indexed key table (Function.update mem p (some b)) where
  object {q c} hq := by
    by_cases hqp : q = p
    · subst hqp
      rw [Function.update_self] at hq
      cases hq
      rw [hk]
      exact hi.object hp
    · rw [Function.update_of_ne hqp] at hq
      exact hi.object hq
  index {k q} hq := by
    obtain ⟨c, hc, rfl⟩ := hi.index hq
    by_cases hqp : q = p
    · subst hqp
      obtain rfl := Option.some.inj (hp.symm.trans hc)
      exact ⟨b, Function.update_self .., hk⟩
    · exact ⟨c, by rw [Function.update_of_ne hqp]; exact hc, rfl⟩

end Registry
