import Mathlib.Data.List.Nodup
import Mathlib.Logic.Function.Basic

/-!
# Linked lists in memory

A field of a node is a function from addresses, and an assignment is
`Function.update`. `Path next p xs q` says that from `p` one comes through the
nodes `xs`, in order, to `q`; `Ring next prev h xs` that the nodes `xs` make a
circular doubly linked list with the dummy head `h`. What is not written stays
as it was: `Path.congr` and `Ring.congr`.
-/

namespace Linked

universe u

variable {A : Type u}

/-! ## Singly linked lists

`Path next p xs q` is a list segment. The address at which it starts is part of it, so that a
segment can be empty, and `path_append` takes segments apart anywhere. Writing a node outside of
a segment does not change it, and this is the only frame condition that is needed. -/

section Path

/-- The nodes one comes through from `p` to `q`. -/
def Path (next : A → Option A) : Option A → List A → Option A → Prop
  | p, [], q => p = q
  | p, a :: as, q => p = some a ∧ Path next (next a) as q

variable {next : A → Option A} {p q r : Option A} {a : A} {xs ys : List A}

@[simp] theorem path_nil : Path next p [] q ↔ p = q := Iff.rfl

@[simp] theorem path_cons : Path next p (a :: xs) q ↔ p = some a ∧ Path next (next a) xs q := Iff.rfl

theorem path_append : Path next p (xs ++ ys) q ↔ ∃ m, Path next p xs m ∧ Path next m ys q := by
  induction xs generalizing p with
  | nil => simp
  | cons x xs ih => simp [ih, and_assoc]

theorem path_concat : Path next p (xs ++ [a]) q ↔ Path next p xs (some a) ∧ next a = q := by
  simp [path_append]

/-- A list that ends begins with its first node. -/
theorem Path.head (h : Path next p xs none) : p = xs.head? := by
  cases xs with
  | nil => exact h
  | cons x xs => exact h.1

theorem Path.congr {next' : A → Option A} (h : Path next p xs q) (heq : ∀ a ∈ xs, next' a = next a) :
    Path next' p xs q := by
  induction xs generalizing p with
  | nil => exact h
  | cons x xs ih =>
    refine ⟨h.1, ?_⟩
    rw [heq x (List.mem_cons_self ..)]
    exact ih h.2 fun a ha => heq a (List.mem_cons_of_mem x ha)

variable [DecidableEq A]

/-- Writing a node that is not in the list. -/
theorem Path.update (h : Path next p xs q) (ha : a ∉ xs) :
    Path (Function.update next a r) p xs q :=
  h.congr fun _ hb => Function.update_of_ne (ne_of_mem_of_not_mem hb ha) ..

/-- The last node is made to point elsewhere. -/
theorem Path.redirect (h : Path next p (xs ++ [a]) q) (ha : a ∉ xs) :
    Path (Function.update next a r) p (xs ++ [a]) r :=
  path_concat.mpr ⟨(path_concat.mp h).1.update ha, Function.update_self ..⟩

/-- A new first node. -/
theorem Path.push (h : Path next p xs q) (ha : a ∉ xs) :
    Path (Function.update next a p) (some a) (a :: xs) q := by
  refine ⟨rfl, ?_⟩
  rw [Function.update_self]
  exact h.update ha

end Path

/-! ## Rings

A ring is a segment from the head back to the head, in both directions. Unlinking changes the
two neighbours of a node, and either may be the head; seeing the ring as one segment makes these
cases the same. -/

/-- The nodes of a circular list, from the one after the dummy head. -/
structure Ring (next prev : A → A) (h : A) (xs : List A) : Prop where
  nodup : (h :: xs).Nodup
  next : (h :: xs).map next = xs ++ [h]
  prev : (xs ++ [h]).map prev = h :: xs

section Ring

variable {next prev next' prev' : A → A} {h e : A} {xs l r : List A}

/-- The empty ring: the head points to itself. -/
theorem Ring.nil (hn : next h = h) (hp : prev h = h) : Ring next prev h [] :=
  ⟨List.nodup_singleton h, by simp [hn], by simp [hp]⟩

theorem Ring.congr (hr : Ring next prev h xs) (hn : ∀ a ∈ h :: xs, next' a = next a)
    (hp : ∀ a ∈ h :: xs, prev' a = prev a) : Ring next' prev' h xs where
  nodup := hr.nodup
  next := by rw [List.map_congr_left hn, hr.next]
  prev := by
    rw [← hr.prev]
    refine List.map_congr_left fun a ha => hp a ?_
    simpa [or_comm] using ha

/-- The first node. -/
theorem Ring.next_head (hr : Ring next prev h xs) : next h = xs.headD h := by
  have hnext := hr.next
  cases xs <;> simp_all

/-- The last node. -/
theorem Ring.concat (hr : Ring next prev h xs) :
    ∃ l, h :: xs = l ++ [prev h] ∧ l.map next = xs ∧ xs.map prev = l := by
  obtain ⟨l, p, hl⟩ : ∃ l p, h :: xs = l ++ [p] :=
    ⟨_, _, (List.dropLast_concat_getLast (List.cons_ne_nil h xs)).symm⟩
  have hnext := hr.next
  have hprev := hr.prev
  rw [hl, List.map_append] at hnext
  rw [hl, List.map_append] at hprev
  obtain ⟨hprev, hlast⟩ := List.append_inj' hprev rfl
  rw [List.singleton_inj.mp hlast]
  exact ⟨l, hl, (List.append_inj' hnext rfl).1, hprev⟩

/-- The two sides of a node. -/
theorem Ring.sides (hr : Ring next prev h (l ++ e :: r)) :
    ∃ l₀ r₀, h :: l = l₀ ++ [prev e] ∧ r ++ [h] = next e :: r₀ ∧
      l₀.map next = l ∧ r.map next = r₀ ∧ l.map prev = l₀ ∧ r₀.map prev = r := by
  obtain ⟨l₀, p, hl⟩ : ∃ l₀ p, h :: l = l₀ ++ [p] :=
    ⟨_, _, (List.dropLast_concat_getLast (List.cons_ne_nil h l)).symm⟩
  obtain ⟨n, r₀, hr₀⟩ : ∃ n r₀, r ++ [h] = n :: r₀ := List.exists_cons_of_ne_nil (by simp)
  have hlen : l₀.length = l.length := by simpa using (congrArg List.length hl).symm
  have hnext : (l₀ ++ p :: e :: r).map next = l ++ e :: n :: r₀ := by
    have := hr.next
    rw [← List.cons_append, hl, List.append_assoc l, List.cons_append, hr₀] at this
    simpa using this
  have hprev : (l ++ e :: n :: r₀).map prev = l₀ ++ p :: e :: r := by
    have := hr.prev
    rw [← List.cons_append, hl, List.append_assoc l, List.cons_append, hr₀] at this
    simpa using this
  rw [List.map_append] at hnext hprev
  obtain ⟨hnl, hnext⟩ := List.append_inj hnext (by simpa using hlen)
  obtain ⟨hpl, hprev⟩ := List.append_inj hprev (by simpa using hlen.symm)
  simp only [List.map_cons, List.cons.injEq] at hnext hprev
  obtain ⟨-, hne, hnr⟩ := hnext
  obtain ⟨hpe, -, hpr⟩ := hprev
  rw [hpe, hne]
  exact ⟨l₀, r₀, hl, hr₀, hnl, hnr, hpl, hpr⟩

variable [DecidableEq A]

/-- An assignment to a node that is not in the list. -/
theorem map_update_of_notMem {f : A → A} {a v : A} (ha : a ∉ l) :
    l.map (Function.update f a v) = l.map f :=
  List.map_congr_left fun _ hb => Function.update_of_ne (ne_of_mem_of_not_mem hb ha) ..

/-- An assignment to one node of a list without duplicates. -/
theorem map_update {f : A → A} {a v : A} (hnodup : (l ++ a :: r).Nodup) :
    (l ++ a :: r).map (Function.update f a v) = l.map f ++ v :: r.map f := by
  have ha := (List.nodup_cons.mp (List.nodup_middle.mp hnodup)).1
  obtain ⟨hl, hr⟩ := not_or.mp fun hin => ha (List.mem_append.mpr hin)
  rw [List.map_append, List.map_cons, Function.update_self, map_update_of_notMem hl,
    map_update_of_notMem hr]

/-- **A node is unlinked**: its neighbours point to each other. The ring is taken apart
at the node, so both neighbours have names, one of which may be the head. -/
theorem Ring.unlink (hr : Ring next prev h (l ++ e :: r)) :
    Ring (Function.update next (prev e) (next e)) (Function.update prev (next e) (prev e)) h (l ++ r) := by
  obtain ⟨l₀, r₀, hl, hr₀, hnl, hnr, hpl, hpr⟩ := hr.sides
  have hnodup : (h :: (l ++ r)).Nodup := by
    refine hr.nodup.sublist ?_
    exact (List.Sublist.append_left (List.sublist_cons_self e r) l).cons_cons h
  have hp : h :: (l ++ r) = l₀ ++ prev e :: r := by
    rw [← List.cons_append, hl, List.append_assoc, List.singleton_append]
  have hn : l ++ r ++ [h] = l ++ next e :: r₀ := by rw [List.append_assoc, hr₀]
  refine ⟨hnodup, ?_, ?_⟩
  · rw [hn, hp, map_update (hp ▸ hnodup), hnl, hnr]
  · have hnodup' : (l ++ r ++ [h]).Nodup := (List.perm_append_singleton h _).nodup_iff.mpr hnodup
    rw [hn, hp, map_update (hn ▸ hnodup'), hpl, hpr]

/-- **A node is appended**, before the head. It must not be in the ring, or its links
would be those of two places. -/
theorem Ring.append (hr : Ring next prev h xs) (he : e ∉ h :: xs) :
    Ring (Function.update (Function.update next e h) (prev h) e)
      (Function.update (Function.update prev e (prev h)) h e) h (xs ++ [e]) := by
  obtain ⟨l, hl, hnext, hprev⟩ := hr.concat
  have hcons : h :: (xs ++ [e]) = l ++ prev h :: [e] := by
    rw [← List.cons_append, hl, List.append_assoc, List.singleton_append]
  have hnodup : (h :: (xs ++ [e])).Nodup := by
    rw [← List.cons_append]
    exact (List.perm_append_singleton e _).nodup_iff.mpr (List.nodup_cons.mpr ⟨he, hr.nodup⟩)
  have hel : e ∉ l := fun hin => he (hl ▸ List.mem_append_left _ hin)
  have hexs : e ∉ xs := fun hin => he (List.mem_cons_of_mem h hin)
  refine ⟨hnodup, ?_, ?_⟩
  · rw [hcons, map_update (hcons ▸ hnodup), map_update_of_notMem hel, hnext, List.map_singleton,
      Function.update_self, List.append_assoc, List.singleton_append]
  · have hnodup' : (xs ++ [e] ++ [h]).Nodup := (List.perm_append_singleton h _).nodup_iff.mpr hnodup
    rw [map_update hnodup', List.map_append, map_update_of_notMem hexs, hprev, List.map_singleton,
      Function.update_self, hcons, List.append_assoc, List.map_nil]
    rfl

end Ring

/-! ## The assignments

The four assignments of the usual doubly linked list with a dummy head, in the order in which
they are made. The order matters: a node that is alone in its ring is both neighbours at once,
and later assignments read what earlier ones have written. -/

/-- The fields `next` and `prev` of the nodes. -/
structure Links (A : Type u) where
  next : A → A
  prev : A → A

section Links

variable {k : Links A} {h e : A} {xs : List A}

/-- The nodes of the circular list with the dummy head `h`. -/
def Links.Ring (k : Links A) (h : A) (xs : List A) : Prop := Linked.Ring k.next k.prev h xs

theorem Links.Ring.nodup (hr : k.Ring h xs) : xs.Nodup := (List.nodup_cons.mp (Linked.Ring.nodup hr)).2

/-- The neighbours of a node are other nodes of its ring. -/
theorem Links.Ring.neighbours (hr : k.Ring h xs) (he : e ∈ xs) :
    k.next e ∈ h :: xs ∧ k.prev e ∈ h :: xs ∧ k.next e ≠ e ∧ k.prev e ≠ e := by
  obtain ⟨l, r, rfl⟩ := List.append_of_mem he
  obtain ⟨l₀, r₀, hl, hr₀, -⟩ := Linked.Ring.sides hr
  have hnodup := Linked.Ring.nodup hr
  have hprev : k.prev e ∈ h :: l := hl ▸ List.mem_append_right _ (List.mem_singleton_self _)
  have hnext : k.next e ∈ r ++ [h] := hr₀ ▸ List.mem_cons_self ..
  rw [← List.cons_append] at hnodup
  have hne : e ∉ h :: l ∧ e ∉ r := by
    have := (List.nodup_cons.mp (List.nodup_middle.mp hnodup)).1
    exact not_or.mp fun hin => this (List.mem_append.mpr hin)
  refine ⟨?_, ?_, ?_, ?_⟩
  · rcases List.mem_append.mp hnext with hin | hin
    · exact List.mem_cons_of_mem _ (List.mem_append_right _ (List.mem_cons_of_mem _ hin))
    · exact List.mem_singleton.mp hin ▸ List.mem_cons_self ..
  · rw [← List.cons_append]
    exact List.mem_append_left _ hprev
  · rintro heq
    rw [heq] at hnext
    rcases List.mem_append.mp hnext with hin | hin
    · exact hne.2 hin
    · exact hne.1 (List.mem_singleton.mp hin ▸ List.mem_cons_self ..)
  · rintro heq
    exact hne.1 (heq ▸ hprev)

variable [DecidableEq A]

/-- `e->next->prev = e->prev; e->prev->next = e->next` -/
def Links.remove (k : Links A) (e : A) : Links A :=
  let prev := Function.update k.prev (k.next e) (k.prev e)
  ⟨Function.update k.next (prev e) (k.next e), prev⟩

/-- `e->next = h; e->prev = h->prev; e->prev->next = e; e->next->prev = e` -/
def Links.append (k : Links A) (h e : A) : Links A :=
  let next := Function.update k.next e h
  let prev := Function.update k.prev e (k.prev h)
  let next := Function.update next (prev e) e
  ⟨next, Function.update prev (next e) e⟩

/-- **A node is removed** from its ring. -/
theorem Links.Ring.remove (hr : k.Ring h xs) (he : e ∈ xs) : (k.remove e).Ring h (xs.erase e) := by
  obtain ⟨-, -, hne, -⟩ := hr.neighbours he
  have hprev : Function.update k.prev (k.next e) (k.prev e) e = k.prev e :=
    Function.update_of_ne hne.symm ..
  have hnodup := hr.nodup
  obtain ⟨l, r, rfl⟩ := List.append_of_mem he
  have hel : e ∉ l := fun hin =>
    (List.nodup_cons.mp (List.nodup_middle.mp hnodup)).1 (List.mem_append_left _ hin)
  rw [List.erase_append_right _ hel, List.erase_cons_head]
  have hu := Linked.Ring.unlink hr
  rw [Links.remove, Links.Ring, hprev]
  exact hu

/-- Another ring is left as it is. -/
theorem Links.Ring.remove_of_disjoint {h' : A} {ys : List A} (hr : k.Ring h xs) (he : e ∈ xs)
    (hr' : k.Ring h' ys) (hd : ∀ a ∈ h :: xs, a ∉ h' :: ys) : (k.remove e).Ring h' ys := by
  obtain ⟨hnext, hprev, hne, -⟩ := hr.neighbours he
  have heq : Function.update k.prev (k.next e) (k.prev e) e = k.prev e :=
    Function.update_of_ne hne.symm ..
  refine Linked.Ring.congr hr' (fun a ha => ?_) fun a ha => ?_
  · rw [Links.remove, heq]
    exact Function.update_of_ne (ne_of_mem_of_not_mem ha (hd _ hprev)) ..
  · exact Function.update_of_ne (ne_of_mem_of_not_mem ha (hd _ hnext)) ..

/-- What `append` assigns, when the node is not in the ring. -/
theorem Links.Ring.append_eq (hr : k.Ring h xs) (he : e ∉ h :: xs) :
    k.append h e = ⟨Function.update (Function.update k.next e h) (k.prev h) e,
      Function.update (Function.update k.prev e (k.prev h)) h e⟩ := by
  obtain ⟨l, hl, -⟩ := Linked.Ring.concat hr
  have hne : e ≠ k.prev h := by
    rintro rfl
    exact he (hl ▸ List.mem_append_right _ (List.mem_singleton_self _))
  rw [Links.append]
  simp only [Function.update_self, Function.update_of_ne hne]

/-- **A node is appended** to a ring. -/
theorem Links.Ring.append (hr : k.Ring h xs) (he : e ∉ h :: xs) : (k.append h e).Ring h (xs ++ [e]) := by
  rw [hr.append_eq he]
  exact Linked.Ring.append hr he

/-- Another ring is left as it is. -/
theorem Links.Ring.append_of_disjoint {h' : A} {ys : List A} (hr : k.Ring h xs) (he : e ∉ h :: xs)
    (hr' : k.Ring h' ys) (he' : e ∉ h' :: ys) (hd : ∀ a ∈ h :: xs, a ∉ h' :: ys) :
    (k.append h e).Ring h' ys := by
  obtain ⟨l, hl, -⟩ := Linked.Ring.concat hr
  have hlast : k.prev h ∈ h :: xs := hl ▸ List.mem_append_right _ (List.mem_singleton_self _)
  rw [hr.append_eq he]
  refine Linked.Ring.congr hr' (fun a ha => ?_) fun a ha => ?_
  · simp only []
    rw [Function.update_of_ne (ne_of_mem_of_not_mem ha (hd _ hlast)), Function.update_of_ne]
    exact ne_of_mem_of_not_mem ha he'
  · simp only []
    rw [Function.update_of_ne (ne_of_mem_of_not_mem ha (hd _ (List.mem_cons_self ..))),
      Function.update_of_ne]
    exact ne_of_mem_of_not_mem ha he'

end Links

end Linked
