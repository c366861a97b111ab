import Mathlib.Algebra.Ring.Nat
import Mathlib.Data.Nat.Size

/-!
# The tree of binary numbers

A number is read from its lowest bit up. Its **ancestors** are what its first `k`
bits are, for any `k`; its parent is what is left when the highest bit is cleared,
and 0 is the root.

A set of numbers **owns** a number through the nearest ancestor it has of it. When
the set is closed under parents, a new member whose parent is there takes over
exactly the numbers below it, and all of them from its parent.

Trees of this kind come up wherever something is divided in halves again and again by the
bits of a hash. The set is what there is; a half that is split off is a new member
(`Owner.insert`), and what two parties know of can be joined (`Owner.union`).
-/

namespace Ancestry

/-- What the first bits of `h` are, as many as `i` has. -/
def Ancestor (i h : Nat) : Prop := h % 2 ^ i.size = i

instance (i h : Nat) : Decidable (Ancestor i h) := inferInstanceAs (Decidable (_ = _))

/-- `i` without its highest bit. -/
def parent (i : Nat) : Nat := i % 2 ^ (i.size - 1)

variable {i j k h c : Nat}

theorem Ancestor.refl (i : Nat) : Ancestor i i := Nat.mod_eq_of_lt i.lt_size_self

theorem Ancestor.le (hi : Ancestor i h) : i ≤ h := hi ▸ Nat.mod_le ..

theorem Ancestor.antisymm (hij : Ancestor i j) (hji : Ancestor j i) : i = j :=
  Nat.le_antisymm hij.le hji.le

/-- The first bits of the first bits. -/
theorem mod_mod_of_le (h : Nat) {k l : Nat} (hkl : k ≤ l) : h % 2 ^ l % 2 ^ k = h % 2 ^ k :=
  Nat.mod_mod_of_dvd h (Nat.pow_dvd_pow 2 hkl)

/-- **The ancestors of a number are in a line.** So the nearest ancestor in a set is the
longest one, and there is only one. -/
theorem Ancestor.of_size_le (hi : Ancestor i h) (hj : Ancestor j h) (hij : i.size ≤ j.size) :
    Ancestor i j := by
  calc j % 2 ^ i.size = h % 2 ^ j.size % 2 ^ i.size := by rw [hj]
    _ = h % 2 ^ i.size := mod_mod_of_le h hij
    _ = i := hi

theorem Ancestor.total (hi : Ancestor i h) (hj : Ancestor j h) : Ancestor i j ∨ Ancestor j i :=
  (Nat.le_total i.size j.size).imp (hi.of_size_le hj) (hj.of_size_le hi)

theorem Ancestor.trans (hij : Ancestor i j) (hjh : Ancestor j h) : Ancestor i h := by
  have hsize : i.size ≤ j.size := Nat.size_le_size hij.le
  calc h % 2 ^ i.size = h % 2 ^ j.size % 2 ^ i.size := (mod_mod_of_le h hsize).symm
    _ = j % 2 ^ i.size := by rw [hjh]
    _ = i := hij

/-- Whatever the number of bits, they are an ancestor. -/
theorem ancestor_mod (h k : Nat) : Ancestor (h % 2 ^ k) h := by
  have hsize : (h % 2 ^ k).size ≤ k := Nat.size_le.mpr (Nat.mod_lt _ (Nat.two_pow_pos k))
  calc h % 2 ^ (h % 2 ^ k).size = h % 2 ^ k % 2 ^ (h % 2 ^ k).size := (mod_mod_of_le h hsize).symm
    _ = h % 2 ^ k := Ancestor.refl _

/-- An ancestor with no more than `k` bits is one of the first `k` bits. -/
theorem Ancestor.mod (hi : Ancestor i h) (hk : i.size ≤ k) : Ancestor i (h % 2 ^ k) :=
  (mod_mod_of_le h hk).trans hi

theorem ancestor_parent (i : Nat) : Ancestor (parent i) i := ancestor_mod ..

theorem parent_lt (hi : i ≠ 0) : parent i < i := by
  have hsize : 0 < i.size := Nat.size_pos.mpr (Nat.pos_of_ne_zero hi)
  have htop : 2 ^ (i.size - 1) ≤ i := Nat.lt_size.mp (Nat.sub_lt hsize Nat.one_pos)
  exact Nat.lt_of_lt_of_le (Nat.mod_lt _ (Nat.two_pow_pos _)) htop

/-- Any other ancestor is one of the parent. -/
theorem Ancestor.of_ne (hi : Ancestor i h) (hne : i ≠ h) : Ancestor i (parent h) := by
  refine hi.mod (Nat.le_sub_one_of_lt (Nat.lt_of_le_of_ne (Nat.size_le_size hi.le) fun hsize =>
    hne ?_))
  rw [← hi, hsize]
  exact Ancestor.refl h

/-! ## Sets of numbers

The partitions of a directory that exist are such a set: it contains the root, and a partition
comes into being by a split of its parent, so it is closed under parents. A hash belongs to the
nearest partition among its ancestors. All that is said of splits below rests on `Owner.insert`:
the set grows by one number, and only what lies below that number changes hands. -/

/-- With a number its parent. -/
def Closed (S : Nat → Prop) : Prop := ∀ i, S i → S (parent i)

/-- `i` is the nearest ancestor of `h` in `S`. -/
structure Owner (S : Nat → Prop) (h i : Nat) : Prop where
  mem : S i
  ancestor : Ancestor i h
  nearest : ∀ j, S j → Ancestor j h → Ancestor j i

variable {S T : Nat → Prop}

/-- With a number all its ancestors. -/
theorem Closed.ancestor (hS : Closed S) (hij : Ancestor i j) (hj : S j) : S i := by
  induction j using Nat.strongRecOn with
  | ind j ih =>
    by_cases hne : i = j
    · rw [hne]
      exact hj
    · have hj0 : j ≠ 0 := fun h0 => hne (by have := hij.le; omega)
      exact ih (parent j) (parent_lt hj0) (hij.of_ne hne) (hS j hj)

theorem Owner.unique (hi : Owner S h i) (hj : Owner S h j) : i = j :=
  (hj.nearest i hi.mem hi.ancestor).antisymm (hi.nearest j hj.mem hj.ancestor)

/-- A member owns itself. -/
theorem Owner.self (hi : S i) : Owner S i i := ⟨hi, Ancestor.refl i, fun _ _ hj => hj⟩

/-- The owner of the parent owns a number that is no member. -/
theorem Owner.of_parent (hi : ¬S i) (ho : Owner S (parent i) j) : Owner S i j where
  mem := ho.mem
  ancestor := ho.ancestor.trans (ancestor_parent i)
  nearest l hl hli := ho.nearest l hl (hli.of_ne fun heq => hi (heq ▸ hl))

/-- The bits that no member has do not matter. -/
theorem Owner.of_mod (hk : ∀ i, S i → i.size ≤ k) (ho : Owner S (h % 2 ^ k) i) : Owner S h i where
  mem := ho.mem
  ancestor := ho.ancestor.trans (ancestor_mod h k)
  nearest j hj hjh := ho.nearest j hj (hjh.mod (hk j hj))

theorem Owner.congr (hST : ∀ i, S i ↔ T i) (hi : Owner S h i) : Owner T h i where
  mem := (hST i).mp hi.mem
  ancestor := hi.ancestor
  nearest j hj := hi.nearest j ((hST j).mpr hj)

/-- What is below a new member was its parent's. -/
theorem Owner.eq_parent (hS : Closed S) (hc : ¬S c) (hpar : S (parent c)) (hi : Owner S h i)
    (hch : Ancestor c h) : i = parent c := by
  have hpi : Ancestor (parent c) i := hi.nearest _ hpar ((ancestor_parent c).trans hch)
  rcases hch.total hi.ancestor with hci | hic
  · exact absurd (hS.ancestor hci hi.mem) hc
  · exact (hic.of_ne fun heq => hc (heq ▸ hi.mem)).antisymm hpi

/-- **A new member takes over what is below it, and nothing else.** This is what makes a
split local: nobody but the parent has to be asked for anything. -/
theorem Owner.insert (hS : Closed S) (hc : ¬S c) (hi : Owner S h i) :
    Owner (fun j => j = c ∨ S j) h (if Ancestor c h then c else i) := by
  split
  · rename_i hch
    refine ⟨.inl rfl, hch, fun j hj hjh => ?_⟩
    rcases hj with rfl | hj
    · exact Ancestor.refl j
    · rcases hch.total hjh with hcj | hjc
      · exact absurd (hS.ancestor hcj hj) hc
      · exact hjc
  · rename_i hch
    refine ⟨.inr hi.mem, hi.ancestor, fun j hj hjh => ?_⟩
    rcases hj with rfl | hj
    · exact absurd hjh hch
    · exact hi.nearest j hj hjh

theorem Closed.insert (hS : Closed S) (hpar : S (parent c)) : Closed fun j => j = c ∨ S j := by
  rintro j (rfl | hj)
  · exact .inr hpar
  · exact .inr (hS j hj)

theorem Closed.union (hS : Closed S) (hT : Closed T) : Closed fun j => S j ∨ T j :=
  fun j hj => hj.imp (hS j) (hT j)

/-- Of two sets the nearer ancestor owns for both. -/
theorem Owner.union (hi : Owner S h i) (hj : Owner T h j) :
    Owner (fun l => S l ∨ T l) h (max i j) := by
  rcases hi.ancestor.total hj.ancestor with hij | hji
  · rw [Nat.max_eq_right hij.le]
    refine ⟨.inr hj.mem, hj.ancestor, fun l hl hlh => ?_⟩
    rcases hl with hl | hl
    · exact (hi.nearest l hl hlh).trans hij
    · exact hj.nearest l hl hlh
  · rw [Nat.max_eq_left hji.le]
    refine ⟨.inl hi.mem, hi.ancestor, fun l hl hlh => ?_⟩
    rcases hl with hl | hl
    · exact hi.nearest l hl hlh
    · exact (hj.nearest l hl hlh).trans hji

/-! ## Children

A child is its parent with one more bit set, above all others. Bit `r` is free in `i` for each
`r` that is not less than the number of bits of `i`, so a partition can be split again and
again, each time with the next bit. -/

/-- The child of `i` that differs from it in bit `r`. -/
theorem size_child {r : Nat} (hi : i < 2 ^ r) : (i + 2 ^ r).size = r + 1 := by
  have hle : (i + 2 ^ r).size ≤ r + 1 := Nat.size_le.mpr (by rw [Nat.pow_succ]; omega)
  have hlt : r < (i + 2 ^ r).size := Nat.lt_size.mpr (Nat.le_add_left ..)
  omega

theorem parent_child {r : Nat} (hi : i < 2 ^ r) : parent (i + 2 ^ r) = i := by
  rw [parent, size_child hi, Nat.add_sub_cancel, Nat.add_mod_right, Nat.mod_eq_of_lt hi]

end Ancestry
