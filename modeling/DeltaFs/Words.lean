import Mathlib.Data.List.Basic

/-!
# Words of a separated list

The non-empty pieces of a list between occurrences of a separator. One equation
carries the theory: a separator splits the words of a list into the words on
its left and the words on its right. Padding a list with further separators
next to one it has, or at its end, therefore leaves its words alone.

It is all that is needed of words elsewhere: a walk takes the first word off, and a list
that is put behind another, after a separator, has its words behind those of the other.
-/

universe u

namespace Words

variable {α : Type u} {sep : α}

/-- `Padded sep l m`: `m` is `l` with any number of extra separators, each put
next to a separator or at the end. -/
inductive Padded (sep : α) (l : List α) : List α → Prop where
  /-- nothing was inserted -/
  | refl : Padded sep l l
  /-- a separator was doubled -/
  | double {m n : List α} : Padded sep l (m ++ sep :: n) → Padded sep l (m ++ sep :: sep :: n)
  /-- a separator was put at the end -/
  | last {m : List α} : Padded sep l m → Padded sep l (m ++ [sep])

/-- The last separator of a run may be read as the first of what follows. -/
theorem cons_replicate_append (k : Nat) (l : List α) :
    sep :: (List.replicate k sep ++ l) = List.replicate k sep ++ sep :: l := by
  rw [← List.cons_append, ← List.replicate_succ, List.replicate_succ', List.append_assoc,
    List.singleton_append]

/-- Padding inserts separators only. -/
theorem Padded.mem {l m : List α} (h : Padded sep l m) {a : α} (ha : a ∈ m) : a ∈ l ∨ a = sep := by
  induction h with
  | refl => exact .inl ha
  | double _ ih =>
    rcases List.mem_append.mp ha with ha | ha
    · exact ih (List.mem_append_left _ ha)
    · rcases List.mem_cons.mp ha with rfl | ha
      · exact .inr rfl
      · exact ih (List.mem_append_right _ ha)
  | last _ ih =>
    rcases List.mem_append.mp ha with ha | ha
    · exact ih ha
    · exact .inr (List.mem_singleton.mp ha)

/-- Padding keeps a leading separator in front. -/
theorem Padded.head? {l m : List α} (h : Padded sep l m) (hl : l.head? = some sep) :
    m.head? = some sep := by
  induction h with
  | refl => exact hl
  | @double m n _ ih =>
    cases m with
    | nil => rfl
    | cons a m => exact ih
  | @last m _ ih =>
    cases m with
    | nil => rfl
    | cons a m => exact ih

variable [DecidableEq α]

/-- The non-empty pieces of `l` between occurrences of `sep`. -/
def words (sep : α) (l : List α) : List (List α) := (l.splitOn sep).filter (· ≠ [])

@[simp] theorem words_nil : words sep ([] : List α) = [] := by
  simp [words, List.splitOn_nil]

/-- **A separator splits the words.** Empty pieces are no words, so it does not matter how
many separators there are. -/
theorem words_append_sep (l m : List α) : words sep (l ++ sep :: m) = words sep l ++ words sep m := by
  rw [words, List.splitOn_append_cons_self, List.filter_append]
  rfl

@[simp] theorem words_sep_cons (l : List α) : words sep (sep :: l) = words sep l :=
  words_append_sep [] l

/-- A run of separators in front belongs to no word. -/
theorem words_replicate_append (k : Nat) (l : List α) :
    words sep (List.replicate k sep ++ l) = words sep l := by
  induction k with
  | zero => rfl
  | succ k ih => rw [List.replicate_succ, List.cons_append, words_sep_cons, ih]

/-- A non-empty list without separators is one word. -/
theorem words_of_not_mem {w : List α} (hne : w ≠ []) (hw : sep ∉ w) : words sep w = [w] := by
  rw [words, List.splitOn_eq_singleton hw]
  simp [hne]

/-- A word in front of a separator comes first. -/
theorem words_append_sep_of_not_mem {w : List α} (hne : w ≠ []) (hw : sep ∉ w) (l : List α) :
    words sep (w ++ sep :: l) = w :: words sep l := by
  rw [words_append_sep, words_of_not_mem hne hw, List.singleton_append]

/-- A word with only separators behind it is the only one. -/
theorem words_append_replicate {w : List α} (hne : w ≠ []) (hw : sep ∉ w) (k : Nat) :
    words sep (w ++ List.replicate k sep) = [w] := by
  cases k with
  | zero => rw [List.replicate_zero, List.append_nil, words_of_not_mem hne hw]
  | succ k =>
    rw [List.replicate_succ, words_append_sep_of_not_mem hne hw, ← List.append_nil (List.replicate k sep),
      words_replicate_append, words_nil]

/-- No word is empty. -/
theorem ne_nil_of_mem_words {w l : List α} (h : w ∈ words sep l) : w ≠ [] := by
  simpa using (List.mem_filter.mp h).2

/-- A list that does not start with a separator has a word. -/
theorem words_cons_ne_nil {a : α} (ha : a ≠ sep) (l : List α) : words sep (a :: l) ≠ [] := by
  by_cases hl : sep ∈ l
  · obtain ⟨w, m, rfl, hw⟩ := List.eq_append_cons_of_mem hl
    have haw : sep ∉ a :: w := by simp [ha.symm, hw]
    rw [← List.cons_append, words_append_sep_of_not_mem (List.cons_ne_nil a w) haw]
    exact List.cons_ne_nil _ _
  · have hal : sep ∉ a :: l := by simp [ha.symm, hl]
    rw [words_of_not_mem (List.cons_ne_nil a l) hal]
    exact List.cons_ne_nil _ _

/-- A word holds every element that is not a separator. -/
theorem words_ne_nil_of_mem {a : α} {l : List α} (h : a ∈ l) (ha : a ≠ sep) :
    words sep l ≠ [] := by
  induction l with
  | nil => cases h
  | cons b l ih =>
    by_cases hb : b = sep
    · subst hb
      rw [words_sep_cons]
      exact ih ((List.mem_cons.mp h).resolve_left ha)
    · exact words_cons_ne_nil hb l

/-- A leading run of separators, and what follows it. -/
theorem exists_replicate_append (sep : α) (l : List α) :
    ∃ k m, l = List.replicate k sep ++ m ∧ m.head? ≠ some sep := by
  induction l with
  | nil => exact ⟨0, [], rfl, Option.some_ne_none _ |>.symm⟩
  | cons a l ih =>
    by_cases ha : a = sep
    · obtain ⟨k, m, rfl, hm⟩ := ih
      exact ⟨k + 1, m, by rw [ha, List.replicate_succ, List.cons_append], hm⟩
    · exact ⟨0, a :: l, rfl, fun h => ha (Option.some.inj h)⟩

/-- **Padding leaves the words alone.** A separator more ends no word that was not ended
before. -/
theorem Padded.words_eq {l m : List α} (h : Padded sep l m) : words sep m = words sep l := by
  induction h with
  | refl => rfl
  | double _ ih => rw [words_append_sep, words_sep_cons, ← words_append_sep, ih]
  | last _ ih => rw [words_append_sep, words_nil, List.append_nil, ih]

end Words
